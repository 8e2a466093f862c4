/-
The value tree of a document. Number texts, string texts and member names stay as they are spelled,
escapes included; the members of an object keep the order of the document, repeated names included.
-/
namespace SchemaInference.Document

inductive Value where
  | null
  | boolean (b : Bool)
  | integer (text : String)
  | real (text : String)
  | string (raw : String)
  | array (items : List Value)
  | object (members : List (String × Value))
deriving Repr, Inhabited

namespace Value

def typeName : Value → String
  | .null => "null"
  | .boolean _ => "boolean"
  | .integer _ => "integer"
  | .real _ => "real"
  | .string _ => "string"
  | .array _ => "array"
  | .object _ => "object"

/-- The first member of that name, as the name is spelled in the document. -/
def get? (v : Value) (name : String) : Option Value :=
  match v with
  | .object members => (members.find? (·.1 == name)).map (·.2)
  | _ => none

end Value

end SchemaInference.Document
