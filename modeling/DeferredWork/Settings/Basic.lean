import DeferredWork.Engine.Backpressure
import DeferredWork.Job.Basic
import DeferredWork.Retry.Policy
import DeferredWork.Text.Blank
import DeferredWork.Text.Quoted
set_option autoImplicit false

/-!
# Settings

The settings of an engine, the settings it has when nothing is said, and the rules that settings
have to keep.  The rules are checked in a fixed order, and the first that is broken is reported.
-/

namespace DeferredWork

/-- The settings of an engine. -/
structure Settings where
  /-- The name with which the engine's own name begins. -/
  name : String := "jobforge"
  /-- How many jobs a cycle polls. -/
  batch : Nat := 10
  /-- How long a lock counts. -/
  lockDuration : Duration := .ofSeconds 300
  workers : Nat := 4
  /-- How many jobs may wait for a worker. -/
  queue : Nat := 4
  defaultRetries : Nat := Job.defaultRetries
  retryPolicy : RetryPolicy := .default
  /-- The limit on the time of one transaction. -/
  limit : Duration := .ofSeconds 30
  pollInterval : Duration := .ofMillis 100
  maxIdle : Duration := .ofSeconds 5
  /-- How many failed cycles in a row make the engine unhealthy. -/
  failureThreshold : Nat := 3
  backpressure : BackpressurePolicy := {}

/-- A rule that settings break. -/
inductive SettingsFlaw where
  | blankName
  | emptyBatch
  | noWorkers
  /-- A lock could end while its transaction may still commit. -/
  | lockTooShort (lock limit : Duration)
  | capBelowBase
  | jitterOutOfRange
  | idleBelowInterval
  | lowWaterOutOfRange
  deriving DecidableEq

/-- The wording of a broken rule. -/
def SettingsFlaw.message : SettingsFlaw → String
  | .blankName => "engine_name must not be empty"
  | .emptyBatch => "batch_size must be at least 1"
  | .noWorkers => "max_pool_size must be at least 1"
  | .lockTooShort lock limit =>
    s!"lock_duration ({lock.describe}) must exceed transaction_timeout ({limit.describe})"
  | .capBelowBase => "retry max_delay is below base_delay"
  | .jitterOutOfRange => "retry jitter must be within 0.0..=1.0"
  | .idleBelowInterval => "max_idle_wait is below poll_interval"
  | .lowWaterOutOfRange => "backpressure low_water_mark must be within 0.0..=1.0"

/-- Why settings were refused. -/
inductive SettingsError where
  /-- A text that is no value of its variable. -/
  | invalidValue (key value : String)
  | invalid (flaw : SettingsFlaw)
  deriving DecidableEq

/-- The wording of a refusal. -/
def SettingsError.message : SettingsError → String
  | .invalidValue key value => s!"invalid value for {key}: {Text.quoted value}"
  | .invalid flaw => s!"invalid configuration: {flaw.message}"

namespace Settings

/-- The settings of an engine of which nothing is said. -/
def default : Settings := {}

instance : Inhabited Settings := ⟨default⟩

/-- A share lies between zero and one. -/
def isShare (x : Float) : Bool := decide (0 ≤ x) && decide (x ≤ 1)

/-- The first rule that the settings break. -/
def flaw? (s : Settings) : Option SettingsFlaw :=
  if Text.isBlankText s.name then some .blankName
  else if s.batch = 0 then some .emptyBatch
  else if s.workers = 0 then some .noWorkers
  else if s.lockDuration ≤ s.limit then some (.lockTooShort s.lockDuration s.limit)
  else if s.retryPolicy.cap < s.retryPolicy.base then some .capBelowBase
  else if !isShare s.retryPolicy.jitter then some .jitterOutOfRange
  else if s.maxIdle < s.pollInterval then some .idleBelowInterval
  else if !isShare s.backpressure.lowWater then some .lowWaterOutOfRange
  else none

/-- Refuses settings that break a rule. -/
def validate (s : Settings) : Except SettingsError Unit :=
  match s.flaw? with
  | none => .ok ()
  | some flaw => .error (.invalid flaw)

end Settings

end DeferredWork
