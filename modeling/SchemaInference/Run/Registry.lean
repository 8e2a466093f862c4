/-
The objects of a run, one of each name, in the order in which the names were first registered. An
object whose name is known is merged into the entry under that name, so an entry only gains members
or widens them. Whether a slot may go without its object is told where the slot is; an entry itself
is never optional.
-/
import SchemaInference.Schema.Unify

namespace SchemaInference

open Schema Traced

structure Registry where
  /-- The objects, each under the name that it was registered by. -/
  entries : List (Identifier × Object)
deriving Repr, Inhabited

namespace Registry

def empty : Registry := ⟨[]⟩

def objects (r : Registry) : List Object := r.entries.map (·.2)

def find? (r : Registry) (name : Identifier) : Option Object :=
  (r.entries.find? (·.1 = name)).map (·.2)

def contains (r : Registry) (name : Identifier) : Bool := r.entries.any (·.1 = name)

def names (r : Registry) : List Identifier := r.entries.map (·.1)

def size (r : Registry) : Nat := r.entries.length

def isEmpty (r : Registry) : Bool := r.entries.isEmpty

/-- The entry under `name` replaced by `o`. -/
def replace (r : Registry) (name : Identifier) (o : Object) : Registry :=
  ⟨r.entries.map fun e => if e.1 = name then (name, o) else e⟩

/-- A merge that fails leaves the entry as far merged as it came. -/
def register (p : Policy) (r : Registry) (o : Object) :
    Traced (Halted Registry Fault) Registry :=
  let incoming := { o with optional := false }
  match r.find? o.name with
  | none => do
    emit (.registering o.name o.members.length)
    return ⟨r.entries ++ [(o.name, incoming)]⟩
  | some entry => do
    emit (.merging o.name o.members.length)
    let merged ← (entry.merge p incoming).mapFault fun h => ⟨r.replace o.name h.left, h.fault⟩
    return r.replace o.name merged

end Registry

end SchemaInference
