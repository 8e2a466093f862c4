/-
What a run has met at least once, for whoever generates code from the outcome. A feature that is set
stays set.
-/
import SchemaInference.Schema.Node

namespace SchemaInference

open Schema

structure Features where
  arrays : Bool := false
  integrals : Bool := false
  optionals : Bool := false
  strings : Bool := false
  maps : Bool := false
deriving DecidableEq, Repr, Inhabited

namespace Features

/-- A value of that kind was met. -/
def meet (f : Features) : Kind → Features
  | .null => { f with optionals := true }
  | .scalar .integer => { f with integrals := true }
  | .scalar .string => { f with strings := true }
  | .array => { f with arrays := true }
  | .map => { f with maps := true }
  | _ => f

def meetOptional (f : Features) (met : Bool) : Features :=
  { f with optionals := f.optionals || met }

end Features

end SchemaInference
