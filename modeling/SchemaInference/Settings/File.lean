/-
Settings read from a file. The file is a document: an object whose members are the fields, each at
most once and none unknown, or an array of the fields in their order, of which any number at the end
may be missing. A field that is missing keeps its default, and so does one that is null, except the
map paths. A choice is written by its name, or as an object with that name as its one member and
null as its value.

The fields take effect in an order of their own: first the dialect, then the root, then the map
paths, since each of them decides how the next one is read.
-/
import SchemaInference.Document.Reader
import SchemaInference.Settings
import SchemaInference.Text.Escape

namespace SchemaInference

open Schema Document

namespace Settings

/-- The fields of a settings file, in the order in which an array gives them. -/
inductive Field where
  | rootName
  | mapPaths
  | useView
  | typePrefix
  | typeSuffix
  | policy
  | dialect
deriving DecidableEq, Repr

namespace Field

def all : List Field :=
  [.rootName, .mapPaths, .useView, .typePrefix, .typeSuffix, .policy, .dialect]

def name : Field → String
  | .rootName => "root_name"
  | .mapPaths => "kv_paths"
  | .useView => "use_view"
  | .typePrefix => "type_prefix"
  | .typeSuffix => "type_suffix"
  | .policy => "conflict_policy"
  | .dialect => "dialect"

def ofName? (name : String) : Option Field := all.find? (·.name = name)

end Field

/-- What a file says, field by field. -/
structure File where
  rootName : Option String := none
  mapPaths : List String := []
  useView : Option Bool := none
  typePrefix : Option String := none
  typeSuffix : Option String := none
  policy : Option Policy := none
  dialect : Option Dialect := none
deriving DecidableEq, Repr

/-! ## Values of fields -/

def text? (raw : String) : Option String := (Text.unescape? raw.toList).map String.ofList

def string? : Value → Option String
  | .string raw => text? raw
  | _ => none

def boolean? : Value → Option Bool
  | .boolean b => some b
  | _ => none

def strings? : Value → Option (List String)
  | .array items => items.mapM string?
  | _ => none

/-- A choice by its name. -/
def choice? {α : Type} (ofName? : String → Option α) : Value → Option α
  | .string raw => do ofName? (← text? raw)
  | .object [(raw, .null)] => do ofName? (← text? raw)
  | _ => none

/-- Null says nothing; any other value has to be understood. -/
def unlessNull? {α : Type} (read : Value → Option α) : Value → Option (Option α)
  | .null => some none
  | v => (read v).map some

namespace File

def set? (f : File) (field : Field) (v : Value) : Option File :=
  match field with
  | .rootName => do return { f with rootName := ← unlessNull? string? v }
  | .mapPaths => do return { f with mapPaths := ← strings? v }
  | .useView => do return { f with useView := ← unlessNull? boolean? v }
  | .typePrefix => do return { f with typePrefix := ← unlessNull? string? v }
  | .typeSuffix => do return { f with typeSuffix := ← unlessNull? string? v }
  | .policy => do return { f with policy := ← unlessNull? (choice? Policy.ofName?) v }
  | .dialect => do return { f with dialect := ← unlessNull? (choice? Dialect.ofName?) v }

def setAll? (f : File) (fields : List (Field × Value)) : Option File :=
  fields.foldlM (fun f (field, v) => f.set? field v) f

def ofValue? : Value → Option File
  | .array items => do
    guard (items.length ≤ Field.all.length)
    setAll? {} (Field.all.zip items)
  | .object members => do
    let fields ← members.mapM fun (raw, v) => do return (← Field.ofName? (← text? raw), v)
    guard (fields.map (·.1)).Nodup
    setAll? {} fields
  | _ => none

def settings (f : File) : Settings :=
  let c := f.dialect.elim default default.withDialect
  let c := f.rootName.elim c c.withRootName
  let c := f.mapPaths.foldl withMapPath c
  { c with
    useView := f.useView.getD c.useView
    typePrefix := f.typePrefix.getD c.typePrefix
    typeSuffix := f.typeSuffix.getD c.typeSuffix
    policy := f.policy.getD c.policy }

/-- What the text of a file says, if it is one. -/
def ofText? (text : String) : Option File :=
  match parse text with
  | .ok v => ofValue? v
  | .error _ => none

end File

/-- The settings that the text of a file gives. -/
def ofText? (text : String) : Option Settings := (File.ofText? text).map File.settings

end Settings

end SchemaInference
