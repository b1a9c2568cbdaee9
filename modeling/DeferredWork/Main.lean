import DeferredWork.Cluster.Session
import DeferredWork.Json.Pretty
import DeferredWork.Settings.Variables
set_option autoImplicit false

/-!
# The program

Reads its settings from the variables of its surroundings, lets an engine work on the seed jobs for a
number of seconds, and prints what became of them.
-/

namespace DeferredWork.Program

/-- The variable that says for how many seconds the engine works. -/
def runKey : String := "JOBFORGE_RUN_SECS"

/-- How long the engine works, in seconds, if nothing is said. -/
def defaultSeconds : Nat := 5

/-- The number of seconds that a text stands for; blanks around it are not allowed. -/
def readSeconds (raw : String) : Option Nat :=
  if raw.toList.any Text.isBlank then none else Text.readNatural 64 raw

/-- The variables that are set, of those that settings are made of. -/
def readVariables : IO (List (String × String)) := do
  let found ← SettingsVariable.all.mapM fun v => do
    return (← IO.getEnv v.key).map fun raw => (v.key, raw)
  return found.filterMap id

/-- The time since the machine was started, as an instant. -/
def clock : IO Instant := do
  return (Instant.ofNanos? (← IO.monoNanosNow)).getD .last

/-- Lets a session work until an instant, or until its engine breaks off. -/
partial def work (session : Session) (start stop : Instant) : IO Session := do
  let now ← clock
  if stop ≤ now then return session
  match session.cycle now (now.nanos - start.nanos).toNat with
  | (none, session) => return session
  | (some wait, session) =>
    let left := (stop.nanos - now.nanos).toNat / 1000000
    IO.sleep (min wait.millis left).toUInt32
    work session start stop

/-- Ends the program because of an error. -/
def fail (what why : String) : IO UInt32 := do
  IO.eprintln s!"Error: {what}\n\nCaused by:\n    {why}"
  return 1

/-- Runs the program. -/
def run : IO UInt32 := do
  let found ← readVariables
  match Settings.ofVariables fun key => found.lookup key with
  | .error e => fail "loading engine configuration" e.message
  | .ok settings =>
    match (← IO.getEnv runKey).elim (some defaultSeconds) readSeconds with
    | none => fail s!"{runKey} must be a number of seconds" "invalid digit found in string"
    | some seconds =>
      let start ← clock
      match (Session.start settings start).seeded with
      | .error e => fail "scheduling seed job" e.message
      | .ok session =>
        let session ← work session start (start.afterOrLast (.ofSeconds seconds))
        match session.report with
        | .error e => fail "reading job stats" e.message
        | .ok report =>
          IO.println report.pretty
          return 0

end DeferredWork.Program

def main : IO UInt32 := DeferredWork.Program.run
