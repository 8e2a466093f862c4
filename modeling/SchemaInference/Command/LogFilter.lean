/-
Which events are shown. A verbosity on the command line decides; without one the environment may
give a directive of its own, blanks around it left out; else warnings are shown.
-/
import SchemaInference.Command.Line
import SchemaInference.Text.Blank

namespace SchemaInference.Command

/-- The name of a level as a directive gives it. -/
def levelDirective : Level → String
  | .error => "error"
  | .warn => "warn"
  | .info => "info"
  | .debug => "debug"
  | .trace => "trace"

/-- The least severe level that a directive shows, if it shows any. -/
def directiveLevel? : String → Option Level
  | "error" => some .error
  | "warn" => some .warn
  | "info" => some .info
  | "debug" => some .debug
  | "trace" => some .trace
  | _ => none

theorem directiveLevel_levelDirective (l : Level) : directiveLevel? (levelDirective l) = some l := by
  cases l <;> rfl

def Invocation.logFilter (i : Invocation) (environment : Option String) : String :=
  let given := Text.trim (environment.getD "")
  if i.verbosity = 0 && !given.isEmpty then given else levelDirective i.level

end SchemaInference.Command
