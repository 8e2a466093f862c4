/-
A document as the builder meets it: of each value only what its schema depends on. Scalars are their
kind, and member names are sanitized, so two members of one object may have come to share a name.
-/
import SchemaInference.Document.Value
import SchemaInference.Schema.Node

namespace SchemaInference

open Schema Document

inductive Sample where
  | null
  | scalar (s : Scalar)
  | array (items : List Sample)
  | object (members : List (Identifier × Sample))
deriving Repr, Inhabited

namespace Sample

def kind : Sample → Kind
  | .null => .null
  | .scalar s => .scalar s
  | .array _ => .array
  | .object _ => .object

mutual

def ofValue (d : Dialect) : Value → Sample
  | .null => .null
  | .boolean _ => .scalar .boolean
  | .integer _ => .scalar .integer
  | .real _ => .scalar .real
  | .string _ => .scalar .string
  | .array items => .array (ofItems d items)
  | .object members => .object (ofMembers d members)

def ofItems (d : Dialect) : List Value → List Sample
  | [] => []
  | v :: vs => ofValue d v :: ofItems d vs

def ofMembers (d : Dialect) : List (String × Value) → List (Identifier × Sample)
  | [] => []
  | (name, v) :: ms => (Identifier.sanitize d name, ofValue d v) :: ofMembers d ms

end

end Sample

end SchemaInference
