/-
The builder on one path for all slots. `Slot.infer` is told the path of each slot; here there is one
path, which is changed in place: a name is put at its end on the way into a container and taken off
on the way out. Whoever has a slot inferred hands over the path of the container around it, and gets
back the path that is left, after a fault as well.
-/
import SchemaInference.Run.Slot

namespace SchemaInference

open Schema Traced

/-- A computation on a path that it may change, and that may gather more by the way. -/
def Walk (α : Type) : Type := Path → Gathered → Traced Fault (α × Gathered) × Path

namespace Walk

variable {α β : Type}

/-- What the computation comes to on a path, and the path that is left. -/
def run (x : Walk α) (path : Path) (g : Gathered) : Traced Fault (α × Gathered) × Path := x path g

/-- After a fault nothing follows, and the path stays as it was then. -/
def bind (x : Walk α) (f : α → Walk β) : Walk β := fun path g =>
  let (t, path) := x.run path g
  match t.outcome with
  | .error e => (⟨t.events, .error e⟩, path)
  | .ok (a, g) =>
    let (u, path) := (f a).run path g
    (⟨t.events ++ u.events, u.outcome⟩, path)

instance : Monad Walk where
  pure a := fun path g => (pure (a, g), path)
  bind := bind

/-- A computation that is told the path and leaves it alone. -/
def told (f : Path → Gathering α) : Walk α := fun path g => (f path g, path)

/-- A computation one name further down. Whatever comes of it, the last name is taken off then. -/
def below (name : Identifier) (x : Walk α) : Walk α := fun path g =>
  let (t, inner) := x.run (path ++ [name]) g
  (t, inner.dropLast)

theorem run_below (name : Identifier) (x : Walk α) (path : Path) (g : Gathered) :
    (below name x).run path g =
      ((x.run (path ++ [name]) g).1, (x.run (path ++ [name]) g).2.dropLast) := rfl

end Walk

namespace Slot

open Walk

def visit (hint : Identifier) (k : Kind) : Walk Unit := told fun path g => do
  emit (.visiting path hint k)
  return ((), g)

def meet (k : Kind) : Walk Unit := told fun _ g => pure ((), g.meet k)

def atMapPath (c : Settings) : Walk Bool := told fun path g => pure (c.isMapPath path, g)

def joinHere (c : Settings) (hint : Identifier) (known : Option Node) (n : Node) : Walk Node :=
  told fun path g => do return (← join c path hint known n, g)

/-- A container in the slot `hint`: a map, whose entries are folded into one value, or an object of
some members. Its name is on the path as long as it is worked on. -/
def walkContainer (c : Settings) (hint : Identifier) (value : Walk Node) (members : Walk Members) :
    Walk Node :=
  below hint do
    if ← atMapPath c then
      meet .map
      let v ← value
      return .map hint v false
    else
      let ms ← members
      told fun path => declare c path ⟨c.objectName hint.text, ms, false⟩

mutual

def walk (c : Settings) (hint : Identifier) : Sample → Walk Node
  | .null => do
    visit hint .null
    meet .null
    return .null
  | .scalar s => do
    visit hint (.scalar s)
    meet (.scalar s)
    return .scalar s false
  | .array items => do
    visit hint .array
    meet .array
    let element ← walkItems c (c.elementHint hint) items none
    return .array element false
  | .object members => do
    visit hint .object
    walkContainer c hint (walkEntries c (c.valueHint hint) members none) (walkMembers c members [])

/-- The items, all in the slot `hint`, folded from the left. -/
def walkItems (c : Settings) (hint : Identifier) : List Sample → Option Node → Walk Node
  | [], known => told fun _ => conclude known
  | s :: items, known => do
    let n ← walk c hint s
    let joined ← joinHere c hint known n
    walkItems c hint items (some joined)

/-- The values of the entries, all in the slot `hint`, folded from the left. -/
def walkEntries (c : Settings) (hint : Identifier) :
    List (Identifier × Sample) → Option Node → Walk Node
  | [], known => told fun _ => conclude known
  | (_, s) :: entries, known => do
    let n ← walk c hint s
    let joined ← joinHere c hint known n
    walkEntries c hint entries (some joined)

/-- The members one by one, those of one name joined. -/
def walkMembers (c : Settings) : List (Identifier × Sample) → Members → Walk Members
  | [], known => pure known
  | (name, s) :: members, known => do
    let n ← walk c name s
    let joined ← joinHere c name (known.get? name) n
    walkMembers c members (known.put name joined)

end

end Slot

end SchemaInference
