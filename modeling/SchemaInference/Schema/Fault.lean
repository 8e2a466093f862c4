/-
Where a slot stands, and what is wrong when two schemas of one slot do not go together. A path
lists the names from the outermost one down; a fault gathers its path from the inside out
(`Fault.within`).
-/
import SchemaInference.Schema.Node

namespace SchemaInference.Schema

abbrev Path : Type := List Identifier

/-- The names with a point between each two. -/
def Path.dotted (p : Path) : String := ".".intercalate (p.map Identifier.text)

/-- Why two nodes do not go together. The names of objects and maps follow from the slot, so two
names in one slot are a breach of the naming, not a matter of the documents. -/
inductive Clash where
  | kinds (left right : Kind)
  | objectNames (left right : Identifier)
  | mapNames (left right : Identifier)
  | objectAndMap (object map : Identifier)
deriving DecidableEq, Repr, Inhabited

structure Fault where
  path : Path
  clash : Clash
deriving DecidableEq, Repr, Inhabited

namespace Fault

def within (name : Identifier) (f : Fault) : Fault := { f with path := name :: f.path }

def withinPath (outer : Path) (f : Fault) : Fault := { f with path := outer ++ f.path }

private def ticked (text : String) : String := "`" ++ text ++ "`"

def message (f : Fault) : String :=
  let place := ticked f.path.dotted
  match f.clash with
  | .kinds l r =>
    "schema conflict at " ++ place ++ ": cannot unify " ++ l.name ++ " with " ++ r.name
  | .objectNames l r =>
    "invariant violated at " ++ place ++ ": object " ++ ticked l.text ++
      " met differently named object " ++ ticked r.text ++ " in the same slot"
  | .mapNames l r =>
    "invariant violated at " ++ place ++ ": key-value map " ++ ticked l.text ++
      " met differently named map " ++ ticked r.text ++ " in the same slot"
  | .objectAndMap o m =>
    "invariant violated at " ++ place ++ ": slot observed both as object " ++ ticked o.text ++
      " and as key-value map " ++ ticked m.text

end Fault

end SchemaInference.Schema
