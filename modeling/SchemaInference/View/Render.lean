/-
The view of an inferred schema: a tree in the manner of JSON Schema. Objects are written once, in
the definitions, in the order of the registry; wherever else an object stands, a reference names its
definition. The slot of an optional node takes one of two: what the node says, or null.
-/
import SchemaInference.Run.Basic
import SchemaInference.View.Tree

namespace SchemaInference

open Schema

namespace View

def typed (name : String) : Tree := .record [("type", .text name)]

def nullType : Tree := typed "null"

def scalarType : Scalar → Tree
  | .boolean => typed "boolean"
  | .integer => typed "integer"
  | .real => typed "number"
  | .string => typed "string"

/-- The name by which a definition is referred to. -/
def reference (name : Identifier) : Tree :=
  .record [("$ref", .text ("#/definitions/" ++ name.text))]

def orNull (optional : Bool) (t : Tree) : Tree :=
  if optional then .record [("oneOf", .list [t, nullType])] else t

def node : Node → Tree
  | .null => nullType
  | .scalar s o => orNull o (scalarType s)
  | .array e o => orNull o (.record [("type", .text "array"), ("items", node e)])
  | .object n _ o => orNull o (reference n)
  | .map n v o =>
    orNull o
      (.record [("type", .text "object"), ("title", .text n.text),
        ("additionalProperties", node v)])

/-- With `hideNullOnly`, members where only null was met are left out. -/
def shown (hideNullOnly : Bool) (ms : Members) : Members :=
  ms.filter fun m => !(hideNullOnly && m.2.isNull)

def definition (hideNullOnly : Bool) (o : Object) : Tree :=
  let ms := shown hideNullOnly o.members
  .record [("type", .text "object"),
    ("properties", .record (ms.map fun m => (m.1.text, node m.2))),
    ("required", .list ((Members.required ms).map fun name => .text name.text))]

def features (f : Features) : Tree :=
  .record [("has_arrays", .boolean f.arrays), ("has_integrals", .boolean f.integrals),
    ("has_optionals", .boolean f.optionals), ("has_strings", .boolean f.strings),
    ("has_kv", .boolean f.maps)]

def render (hideNullOnly : Bool) (s : Inferred) : Tree :=
  .record [("title", .text s.rootName.text), ("root", node s.root),
    ("definitions",
      .record (s.registry.objects.map fun o => (o.name.text, definition hideNullOnly o))),
    ("features", features s.features), ("stringView", .boolean s.useView)]

end View

end SchemaInference
