import LiveIsolation.LockTable.Relation

/-!
# Configuration

The settings of an engine. Every setting has a default, and the settings are checked
together before an engine starts.
-/

namespace LiveIsolation

/-- How the switch barrier waits, in milliseconds. -/
structure SwitchPace where
  pollMs : Nat := 1
  /-- A wait as long as this is reported. -/
  stallMs : Nat := 1000
  deriving DecidableEq, Repr

structure EngineConfig where
  initialProtocol : String := "ser"
  buckets : Nat := 1024
  pruneThreshold : Nat := 256
  /-- Every transaction whose number is a multiple of this validates all of its statements;
  zero stands for none. -/
  sampleEvery : Nat := 0
  lockWait : WaitPolicy := {}
  switch : SwitchPace := {}
  deriving DecidableEq, Repr

namespace EngineConfig

def ofProtocol (p : Protocol) : EngineConfig := { initialProtocol := p.name }

def protocol (c : EngineConfig) : Except Fault Protocol := Protocol.parse c.initialProtocol

/-- Checks the settings in order and reports the first bad one. -/
def validate (c : EngineConfig) : Except Fault Unit :=
  match c.protocol with
  | .error e => .error e
  | .ok _ =>
    if c.buckets = 0 then .error .noBuckets
    else if c.switch.pollMs = 0 then .error .noPollInterval
    else .ok ()

def lockTable (c : EngineConfig) : LockTableConfig :=
  { buckets := c.buckets, pruneThreshold := c.pruneThreshold, wait := c.lockWait }

/-- A transaction with this number validates all of its statements. -/
def samples (c : EngineConfig) (transaction : Nat) : Bool :=
  c.sampleEvery != 0 && transaction % c.sampleEvery == 0

theorem validate_eq_ok_iff {c : EngineConfig} :
    c.validate = .ok () ↔ (∃ p, c.protocol = .ok p) ∧ c.buckets ≠ 0 ∧ c.switch.pollMs ≠ 0 := by
  unfold validate
  split
  · rename_i h
    simp [h]
  · rename_i h
    simp only [h]
    split
    · simp_all
    · split <;> simp_all

end EngineConfig

end LiveIsolation
