/-
Schemas: what is known of the values met in one slot. A node says of which kind the values are and
whether the slot may also go without one; a slot where only null was met is `null`, which is
optional by itself. Objects keep their members in order, and an operation on members leaves at most
one member of each name (`Members.Unique`).
-/
import SchemaInference.Identifier.Sanitize

namespace SchemaInference.Schema

/-! ## Kinds -/

inductive Scalar where
  | boolean
  | integer
  | real
  | string
deriving DecidableEq, Repr, Inhabited

/-- The scalar that covers both, if there is one: every integer is a real. -/
def Scalar.join? : Scalar → Scalar → Option Scalar
  | .integer, .real => some .real
  | .real, .integer => some .real
  | s, t => if s = t then some s else none

inductive Kind where
  | null
  | scalar (s : Scalar)
  | array
  | object
  | map
deriving DecidableEq, Repr, Inhabited

def Kind.name : Kind → String
  | .null => "null"
  | .scalar .boolean => "boolean"
  | .scalar .integer => "integer"
  | .scalar .real => "real"
  | .scalar .string => "string"
  | .array => "array"
  | .object => "object"
  | .map => "key-value map"

/-! ## Nodes -/

/-- A `map` is an object whose member names are data: one schema for the values of all entries. -/
inductive Node where
  | null
  | scalar (s : Scalar) (optional : Bool)
  | array (element : Node) (optional : Bool)
  | object (name : Identifier) (members : List (Identifier × Node)) (optional : Bool)
  | map (name : Identifier) (value : Node) (optional : Bool)
deriving Repr, Inhabited

abbrev Members : Type := List (Identifier × Node)

namespace Node

/-! ### Equality -/

mutual

def same : Node → Node → Bool
  | .null, .null => true
  | .scalar s x, .scalar t y => s == t && x == y
  | .array e x, .array f y => same e f && x == y
  | .object n ms x, .object m ns y => n == m && sameMembers ms ns && x == y
  | .map n v x, .map m w y => n == m && same v w && x == y
  | _, _ => false

def sameMembers : List (Identifier × Node) → List (Identifier × Node) → Bool
  | [], [] => true
  | (n, a) :: ms, (m, b) :: ns => n == m && same a b && sameMembers ms ns
  | _, _ => false

end

mutual

theorem same_iff_eq (a b : Node) : same a b = true ↔ a = b := by
  cases a <;> cases b <;> simp [same, and_assoc, same_iff_eq, sameMembers_iff_eq]

theorem sameMembers_iff_eq (ms ns : List (Identifier × Node)) :
    sameMembers ms ns = true ↔ ms = ns := by
  match ms, ns with
  | [], [] => simp [sameMembers]
  | [], _ :: _ => simp [sameMembers]
  | _ :: _, [] => simp [sameMembers]
  | (n, a) :: ms, (m, b) :: ns => simp [sameMembers, and_assoc, same_iff_eq, sameMembers_iff_eq ms ns]

end

instance : DecidableEq Node := fun a b => decidable_of_iff (same a b = true) (same_iff_eq a b)

/-! ### Kind and flag -/

def kind : Node → Kind
  | .null => .null
  | .scalar s _ => .scalar s
  | .array .. => .array
  | .object .. => .object
  | .map .. => .map

def isNull : Node → Bool
  | .null => true
  | _ => false

def isOptional : Node → Bool
  | .null => true
  | .scalar _ o => o
  | .array _ o => o
  | .object _ _ o => o
  | .map _ _ o => o

/-- The node with the flag set to `o`; null has no flag. -/
def setOptional (o : Bool) : Node → Node
  | .null => .null
  | .scalar s _ => .scalar s o
  | .array e _ => .array e o
  | .object n ms _ => .object n ms o
  | .map n v _ => .map n v o

/-- The node of a slot that may also go without a value. -/
def relax (n : Node) : Node := n.setOptional true

/-- Whether the node, or a node directly below it, is optional. -/
def carriesOptional : Node → Bool
  | .array e o => o || e.isOptional
  | .map _ v o => o || v.isOptional
  | .object _ ms o => o || ms.any (·.2.isOptional)
  | n => n.isOptional

end Node

/-! ## Members -/

namespace Members

/-- No two members have the same name. -/
def Unique (ms : Members) : Prop := (ms.map (·.1)).Nodup

def get? (ms : Members) (name : Identifier) : Option Node :=
  (ms.find? (·.1 = name)).map (·.2)

def contains (ms : Members) (name : Identifier) : Bool := ms.any (·.1 = name)

/-- The member of that name replaced in its place, or a new one at the end. -/
def put : Members → Identifier → Node → Members
  | [], name, n => [(name, n)]
  | m :: ms, name, n => if m.1 = name then (name, n) :: ms else m :: put ms name n

/-- Each member that `others` lacks is made optional. -/
def relaxMissing (ms others : Members) : Members :=
  ms.map fun m => if contains others m.1 then m else (m.1, m.2.relax)

/-- The names of the members that every object met had, with a value. -/
def required (ms : Members) : List Identifier := (ms.filter (!·.2.isOptional)).map (·.1)

end Members

/-! ## Objects -/

structure Object where
  name : Identifier
  members : Members
  optional : Bool
deriving DecidableEq, Repr, Inhabited

def Object.node (o : Object) : Node := .object o.name o.members o.optional

end SchemaInference.Schema
