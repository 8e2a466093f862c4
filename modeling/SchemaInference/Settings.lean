/-
What a run is told beforehand: the name of the root, which paths hold maps, how objects are named,
what is done about clashes, and the dialect of the names. Every map path starts at the root, so
renaming the root takes the paths along (`withRootName`), and a path written without the root gets
it in front (`mapPath?`).
-/
import SchemaInference.Schema.Unify

namespace SchemaInference

open Schema

structure Settings where
  /-- The name of the outermost object, which stands for the whole document. -/
  rootName : Identifier
  /-- The paths of the objects whose member names are data, each once. -/
  mapPaths : List Path
  /-- Passed on to whoever generates code: strings are borrowed, not owned. -/
  useView : Bool
  typePrefix : String
  typeSuffix : String
  policy : Policy
  dialect : Dialect
deriving DecidableEq, Repr

namespace Settings

/-- `prefer-first`, names for `cpp`, objects named with `_t` at the end. -/
def default : Settings where
  rootName := ⟨"root_object"⟩
  mapPaths := []
  useView := false
  typePrefix := ""
  typeSuffix := "_t"
  policy := .preferFirst
  dialect := .cpp

instance : Inhabited Settings := ⟨default⟩

/-! ## Names -/

def sanitize (c : Settings) (raw : String) : Identifier := Identifier.sanitize c.dialect raw

/-- The name of an object in the slot `hint`. -/
def objectName (c : Settings) (hint : String) : Identifier :=
  c.sanitize (c.typePrefix ++ hint ++ c.typeSuffix)

/-- The slot of the elements of an array in the slot `hint`. -/
def elementHint (c : Settings) (hint : Identifier) : Identifier :=
  c.sanitize (hint.text ++ "_element")

/-- The slot of the values of a map in the slot `hint`. -/
def valueHint (c : Settings) (hint : Identifier) : Identifier :=
  c.sanitize (hint.text ++ "_value")

/-! ## Map paths -/

/-- One more character at the front of the first piece. -/
def consFirst (c : Char) : List (List Char) → List (List Char)
  | [] => [[c]]
  | piece :: pieces => (c :: piece) :: pieces

/-- The pieces between the dots. A backslash takes the next character as it is, a dot included; at
the end of the text it stands for itself. -/
def splitDotted : List Char → List (List Char)
  | [] => [[]]
  | ['\\'] => [['\\']]
  | '\\' :: c :: cs => consFirst c (splitDotted cs)
  | '.' :: cs => [] :: splitDotted cs
  | c :: cs => consFirst c (splitDotted cs)

/-- The path that `text` writes, its names sanitized, from the root on; none for an empty text. -/
def mapPath? (c : Settings) (text : String) : Option Path :=
  if text.isEmpty then none
  else
    let names := (splitDotted text.toList).map fun piece => c.sanitize (String.ofList piece)
    if names.head? = some c.rootName then some names else some (c.rootName :: names)

def isMapPath (c : Settings) (path : Path) : Bool := path ∈ c.mapPaths

def insertPath (paths : List Path) (path : Path) : List Path :=
  if path ∈ paths then paths else paths ++ [path]

/-! ## Changes -/

/-- The paths there are already start at the new root; those that become equal become one. -/
def withRootName (c : Settings) (raw : String) : Settings :=
  let root := c.sanitize raw
  { c with
    rootName := root
    mapPaths := (c.mapPaths.map fun path => root :: path.tail).foldl insertPath [] }

/-- An empty text adds nothing. -/
def withMapPath (c : Settings) (text : String) : Settings :=
  match c.mapPath? text with
  | none => c
  | some path => { c with mapPaths := insertPath c.mapPaths path }

def withUseView (c : Settings) (useView : Bool) : Settings := { c with useView }

def withPolicy (c : Settings) (policy : Policy) : Settings := { c with policy }

/-- The root is renamed to fit the dialect; the map paths stay as they are. -/
def withDialect (c : Settings) (dialect : Dialect) : Settings :=
  { c with dialect, rootName := Identifier.sanitize dialect c.rootName.text }

def withTypeAffixes (c : Settings) (before after : String) : Settings :=
  { c with typePrefix := before, typeSuffix := after }

end Settings

end SchemaInference
