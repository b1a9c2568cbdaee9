import DeferredWork.Json.Reader
import DeferredWork.Json.Record
import DeferredWork.Settings.Basic
set_option autoImplicit false

/-!
# Settings in JSON

Settings are read from a record in which every field may be missing; so is their backpressure
policy.  A retry policy has to be complete.
-/

namespace DeferredWork

open Json

/-- The strategy that a JSON value stands for: its name, or the name with nothing to say about it. -/
def Strategy.ofJson? : Json → Option Strategy
  | .string name => ofName? name
  | .object [(name, .null)] => ofName? name
  | _ => none

namespace RetryPolicy

/-- The fields of a retry policy, in order. -/
def shape : RecordShape := { names := ["base_delay", "max_delay", "strategy", "jitter"] }

/-- The retry policy that a JSON value stands for. -/
def ofJson? (j : Json) : Option RetryPolicy := do
  match ← j.fields? shape with
  | [base, cap, strategy, jitter] => do
    let base ← required Duration.ofJson? base
    let cap ← required Duration.ofJson? cap
    let strategy ← required Strategy.ofJson? strategy
    let jitter ← required double? jitter
    some { base, cap, strategy, jitter }
  | _ => none

end RetryPolicy

namespace BackpressurePolicy

/-- The fields of a backpressure policy, in order. -/
def shape : RecordShape where
  names := ["min_batch_size", "rejection_threshold", "window", "low_water_mark", "increase_step",
    "max_interval"]
  mayBeShort := true

/-- The backpressure policy that a JSON value stands for. -/
def ofJson? (j : Json) : Option BackpressurePolicy := do
  let unset : BackpressurePolicy := {}
  match ← j.fields? shape with
  | [minBatch, threshold, window, lowWater, step, maxInterval] => do
    let minBatch ← withDefault unset.minBatch (natOfBits? 64) minBatch
    let threshold ← withDefault unset.threshold (natOfBits? 64) threshold
    let window ← withDefault unset.window Duration.ofJson? window
    let lowWater ← withDefault unset.lowWater double? lowWater
    let step ← withDefault unset.step (natOfBits? 64) step
    let maxInterval ← withDefault unset.maxInterval Duration.ofJson? maxInterval
    some { minBatch, threshold, window, lowWater, step, maxInterval }
  | _ => none

end BackpressurePolicy

namespace Settings

/-- The fields of settings, in order. -/
def shape : RecordShape where
  names := ["engine_name", "batch_size", "lock_duration", "max_pool_size", "queue_capacity",
    "default_retries", "retry_policy", "transaction_timeout", "poll_interval", "max_idle_wait",
    "store_failure_threshold", "backpressure"]
  mayBeShort := true

/-- The settings that a JSON value stands for. -/
def ofJson? (j : Json) : Option Settings := do
  match ← j.fields? shape with
  | [name, batch, lockDuration, workers, queue, defaultRetries, retryPolicy, limit, pollInterval,
      maxIdle, failureThreshold, backpressure] => do
    let name ← withDefault default.name text? name
    let batch ← withDefault default.batch (natOfBits? 64) batch
    let lockDuration ← withDefault default.lockDuration Duration.ofJson? lockDuration
    let workers ← withDefault default.workers (natOfBits? 64) workers
    let queue ← withDefault default.queue (natOfBits? 64) queue
    let defaultRetries ← withDefault default.defaultRetries (natOfBits? 32) defaultRetries
    let retryPolicy ← withDefault default.retryPolicy RetryPolicy.ofJson? retryPolicy
    let limit ← withDefault default.limit Duration.ofJson? limit
    let pollInterval ← withDefault default.pollInterval Duration.ofJson? pollInterval
    let maxIdle ← withDefault default.maxIdle Duration.ofJson? maxIdle
    let failureThreshold ← withDefault default.failureThreshold (natOfBits? 32) failureThreshold
    let backpressure ← withDefault default.backpressure BackpressurePolicy.ofJson? backpressure
    some { name, batch, lockDuration, workers, queue, defaultRetries, retryPolicy, limit,
           pollInterval, maxIdle, failureThreshold, backpressure }
  | _ => none

/-- The settings that a JSON text stands for. -/
def read (text : String) : Option Settings := do
  let j ← Json.read text
  ofJson? j

end Settings

end DeferredWork
