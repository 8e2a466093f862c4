/-
A run observes documents one after the other and ends in one schema for all of them. The documents
share the slot of the root; a document that is no object is taken for the one member of an object
that stands in for it. A run that fails is over.
-/
import SchemaInference.Document.Reader
import SchemaInference.Run.Walk

namespace SchemaInference

open Schema Traced

structure Run where
  settings : Settings
  gathered : Gathered
  root : Option Node
  documents : Nat

/-- What a run comes to. -/
structure Inferred where
  rootName : Identifier
  root : Node
  registry : Registry
  features : Features
  useView : Bool
  documents : Nat

/-- Why a document ends a run. -/
inductive Refusal where
  | malformed (f : Document.Fault)
  | unfit (f : Schema.Fault)
deriving DecidableEq, Repr

def Refusal.message : Refusal → String
  | .malformed f => f.message
  | .unfit f => f.message

namespace Run

def start (c : Settings) : Run := ⟨c, {}, none, 0⟩

/-- The schema of the root that the document alone shows. -/
def inferRoot (c : Settings) : Sample → Gathering Node
  | .object members => Slot.infer c [] c.rootName (.object members)
  | s => Slot.inferObject c [] c.rootName [(c.rootName, s)]

def observe (r : Run) (v : Document.Value) : Traced Fault Run := do
  let c := r.settings
  let (n, gathered) ← inferRoot c (Sample.ofValue c.dialect v) r.gathered
  let root ← Slot.join c [] c.rootName r.root n
  return { r with gathered, root := some root, documents := r.documents + 1 }

def observeText (r : Run) (text : String) : Traced Refusal Run := do
  let v ← (ofExcept (Document.parse text)).mapFault .malformed
  (r.observe v).mapFault .unfit

/-- The schema of the slot `hint` below `path` that the value alone shows. Beside it stands what is
left of the path, which is there after a fault as well. -/
def inferValue (r : Run) (v : Document.Value) (path : Path) (hint : Identifier) :
    Traced Fault (Node × Run) × Path :=
  let c := r.settings
  let (t, left) := (Slot.walk c hint (Sample.ofValue c.dialect v)).run path r.gathered
  (do
    let (n, gathered) ← t
    return (n, { r with gathered }), left)

/-- The schema of the slot `hint` below `path` that the document in `text` alone shows. -/
def inferSlot (r : Run) (text : String) (path : Path) (hint : Identifier) :
    Traced Refusal (Node × Run) := do
  let v ← (ofExcept (Document.parse text)).mapFault .malformed
  (r.inferValue v path hint).1.mapFault .unfit

def finish (r : Run) : Inferred where
  rootName := r.settings.rootName
  root := r.root.getD .null
  registry := r.gathered.registry
  features := r.gathered.features
  useView := r.settings.useView
  documents := r.documents

end Run

/-- The schema of all the documents, observed in order. -/
def inferTexts (c : Settings) (texts : List String) : Traced Refusal Inferred := do
  let r ← texts.foldlM Run.observeText (Run.start c)
  return r.finish

end SchemaInference
