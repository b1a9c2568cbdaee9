import DeferredWork.Settings.Basic
import DeferredWork.Text.Digits
set_option autoImplicit false

/-!
# Settings from variables

Variables of the surroundings overlay the default settings, one field each.  They are read in a fixed
order; the first text that is no value of its field is reported with its variable.
-/

namespace DeferredWork

/-- Reads a natural number of at most the given bits: an optional plus and digits, with blanks around
them. -/
def Text.readNatural (bits : Nat) (s : String) : Option Nat :=
  let ds :=
    match trimEnd (trimStart s.toList) with
    | '+' :: cs => cs
    | cs => cs
  if isNumberText ds ∧ ofDigits ds < Nat.pow 2 bits then some (ofDigits ds) else none

/-- A variable and the field it overlays. -/
structure SettingsVariable where
  key : String
  /-- The settings with the value of a text, if the text is a value of the field. -/
  overlay : String → Settings → Option Settings

namespace SettingsVariable

/-- A variable with a natural number. -/
def natural (key : String) (bits : Nat) (set : Nat → Settings → Settings) : SettingsVariable where
  key := key
  overlay raw s := (Text.readNatural bits raw).map fun n => set n s

/-- A variable with a duration in milliseconds. -/
def millis (key : String) (set : Duration → Settings → Settings) : SettingsVariable :=
  natural key 64 fun n => set (.ofMillis n)

/-- The strategy that a text names, in whatever case and with blanks around it. -/
def strategy? (raw : String) : Option Strategy :=
  Strategy.ofName? (String.ofList ((Text.trim raw).toList.map Char.toLower))

/-- All variables, in the order in which they are read. -/
def all : List SettingsVariable := [
  { key := "JOBFORGE_ENGINE_NAME", overlay := fun raw s => some { s with name := raw } },
  natural "JOBFORGE_BATCH_SIZE" 64 fun n s => { s with batch := n },
  millis "JOBFORGE_LOCK_DURATION_MS" fun d s => { s with lockDuration := d },
  natural "JOBFORGE_MAX_POOL_SIZE" 64 fun n s => { s with workers := n },
  natural "JOBFORGE_QUEUE_CAPACITY" 64 fun n s => { s with queue := n },
  natural "JOBFORGE_DEFAULT_RETRIES" 32 fun n s => { s with defaultRetries := n },
  { key := "JOBFORGE_BACKOFF"
    overlay := fun raw s => (strategy? raw).map fun strategy =>
      { s with retryPolicy := { s.retryPolicy with strategy := strategy } } },
  millis "JOBFORGE_RETRY_DELAY_MS" fun d s =>
    { s with retryPolicy := { s.retryPolicy with base := d, cap := max s.retryPolicy.cap d } },
  millis "JOBFORGE_MAX_RETRY_DELAY_MS" fun d s =>
    { s with retryPolicy := { s.retryPolicy with cap := d } },
  millis "JOBFORGE_TRANSACTION_TIMEOUT_MS" fun d s => { s with limit := d },
  millis "JOBFORGE_POLL_INTERVAL_MS" fun d s => { s with pollInterval := d },
  millis "JOBFORGE_MAX_IDLE_WAIT_MS" fun d s => { s with maxIdle := d }]

/-- The settings with the value of a variable, if the variable is there. -/
def overlayFrom (lookup : String → Option String) (s : Settings) (v : SettingsVariable) :
    Except SettingsError Settings :=
  match lookup v.key with
  | none => .ok s
  | some raw =>
    match v.overlay raw s with
    | some s => .ok s
    | none => .error (.invalidValue v.key raw)

end SettingsVariable

/-- The default settings with the values of all variables that are there. -/
def Settings.ofVariables (lookup : String → Option String) : Except SettingsError Settings := do
  let s ← SettingsVariable.all.foldlM (SettingsVariable.overlayFrom lookup) Settings.default
  s.validate
  return s

end DeferredWork
