/-
The schema of one slot, inferred from a sample found there. The elements of an array, the values of
a map and members of one name are folded into one schema each; an object is named after its slot
and registered, so objects of one name, wherever they stand, are one declaration. An object is a map
just where its path is one of the map paths.

The slot is told by the path of the container around it and a hint, its own name. The path only goes
down into a container and is never changed for the one who called.
-/
import SchemaInference.Run.Registry
import SchemaInference.Run.Sample
import SchemaInference.Run.Features
import SchemaInference.Settings

namespace SchemaInference

open Schema Traced

/-- What a run has gathered by the way, beside the schema of the slot at hand. -/
structure Gathered where
  registry : Registry := .empty
  features : Features := {}
deriving Repr, Inhabited

/-- A computation that may gather more, and fails where two schemas do not go together. -/
abbrev Gathering (α : Type) : Type := Gathered → Traced Fault (α × Gathered)

namespace Gathered

def meet (g : Gathered) (k : Kind) : Gathered := { g with features := g.features.meet k }

def meetOptional (g : Gathered) (met : Bool) : Gathered :=
  { g with features := g.features.meetOptional met }

end Gathered

namespace Slot

/-- The schema of the slot `hint` below `path`, where `known` was known of it and now `n` is met. -/
def join (c : Settings) (path : Path) (hint : Identifier) (known : Option Node) (n : Node) :
    Traced Fault Node :=
  match known with
  | none => pure n
  | some m => (unify c.policy m n).mapFault fun f => (f.within hint).withinPath path

/-- An object found at `path`. The node keeps what this object alone shows; the registry entry is
what all objects of the name show. -/
def declare (c : Settings) (path : Path) (o : Object) : Gathering Node := fun g => do
  let registry ← (g.registry.register c.policy o).mapFault (·.fault.withinPath path)
  let met := (registry.find? o.name).any fun entry => entry.members.any (·.2.isOptional)
  return (o.node, { g with registry }.meetOptional met)

/-- A container in the slot `hint`: a map, whose entries are folded into one value, or an object of
some members. Both are told the path of the container. -/
def container (c : Settings) (path : Path) (hint : Identifier) (value : Path → Gathering Node)
    (members : Path → Gathering Members) : Gathering Node := fun g =>
  let inner := path ++ [hint]
  if c.isMapPath inner then do
    let (v, g) ← value inner (g.meet .map)
    return (.map hint v false, g)
  else do
    let (ms, g) ← members inner g
    declare c inner ⟨c.objectName hint.text, ms, false⟩ g

/-- A fold has come to its end; without any item it is null. -/
def conclude (known : Option Node) : Gathering Node := fun g =>
  let n := known.getD .null
  pure (n, g.meetOptional n.carriesOptional)

mutual

def infer (c : Settings) (path : Path) (hint : Identifier) : Sample → Gathering Node
  | .null, g => do
    emit (.visiting path hint .null)
    return (.null, g.meet .null)
  | .scalar s, g => do
    emit (.visiting path hint (.scalar s))
    return (.scalar s false, g.meet (.scalar s))
  | .array items, g => do
    emit (.visiting path hint .array)
    let (element, g) ← foldItems c path (c.elementHint hint) items none (g.meet .array)
    return (.array element false, g)
  | .object members, g => do
    emit (.visiting path hint .object)
    container c path hint (fun inner => foldEntries c inner (c.valueHint hint) members none)
      (fun inner => inferMembers c inner members []) g

/-- The items, all in the slot `hint`, folded from the left. -/
def foldItems (c : Settings) (path : Path) (hint : Identifier) :
    List Sample → Option Node → Gathering Node
  | [], known, g => conclude known g
  | s :: items, known, g => do
    let (n, g) ← infer c path hint s g
    let joined ← join c path hint known n
    foldItems c path hint items (some joined) g

/-- The values of the entries, all in the slot `hint`, folded from the left. -/
def foldEntries (c : Settings) (path : Path) (hint : Identifier) :
    List (Identifier × Sample) → Option Node → Gathering Node
  | [], known, g => conclude known g
  | (_, s) :: entries, known, g => do
    let (n, g) ← infer c path hint s g
    let joined ← join c path hint known n
    foldEntries c path hint entries (some joined) g

/-- The members one by one, those of one name joined. -/
def inferMembers (c : Settings) (path : Path) :
    List (Identifier × Sample) → Members → Gathering Members
  | [], known, g => pure (known, g)
  | (name, s) :: members, known, g => do
    let (n, g) ← infer c path name s g
    let joined ← join c path name (known.get? name) n
    inferMembers c path members (known.put name joined) g

end

/-- What is inferred of an object with these members. -/
def inferObject (c : Settings) (path : Path) (hint : Identifier)
    (members : List (Identifier × Sample)) : Gathering Node :=
  container c path hint (fun inner => foldEntries c inner (c.valueHint hint) members none)
    (fun inner => inferMembers c inner members [])

/-- An object in a slot is announced, and then inferred from its members. -/
theorem infer_object (c : Settings) (path : Path) (hint : Identifier)
    (members : List (Identifier × Sample)) (g : Gathered) :
    infer c path hint (.object members) g =
      emit (.visiting path hint .object) >>= fun _ => inferObject c path hint members g := rfl

end Slot

end SchemaInference
