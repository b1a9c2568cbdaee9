import DeferredWork.Text.Blank
set_option autoImplicit false

/-!
# Log formats

A process logs in one of two formats, chosen by a variable of its surroundings.
-/

namespace DeferredWork

/-- How a process logs. -/
inductive LogFormat where
  | json
  | pretty
  deriving DecidableEq, Repr

namespace LogFormat

/-- The variable that chooses the format. -/
def key : String := "JOBFORGE_LOG_FORMAT"

/-- The format that a value of the variable chooses: pretty if it says so, in whatever case and with
blanks around it, and JSON otherwise. -/
def choose : Option String → LogFormat
  | none => .json
  | some value =>
    if (Text.trim value).toList.map Char.toLower = "pretty".toList then .pretty else .json

/-- The name of a format. -/
def name : LogFormat → String
  | .json => "Json"
  | .pretty => "Pretty"

end LogFormat

end DeferredWork
