/-
What the flags of a request do to the settings of its file, field by field (`Request.flagged`). A
dialect counts for the names that come after it: for a root and map paths on the same line, and for the
root that there was. A root on the line takes the map paths of the file along.
-/
import SchemaInference.Command.Line
import SchemaInference.Proofs.Settings.MapPaths

namespace SchemaInference.Command

open Schema

/-- The settings `s` are the settings `c` with what the request says on top. -/
structure Request.Flagged (r : Request) (c s : Settings) : Prop where
  dialect : s.dialect = r.dialect.getD c.dialect
  /-- Without a root on the line, a dialect on it still has the root fit in. -/
  rootName : s.rootName =
    match r.rootName with
    | some raw => s.sanitize raw
    | none => if r.dialect.isSome then s.sanitize c.rootName.text else c.rootName
  /-- The paths of the file, below the root of the line if there is one, and those of the line after
  them, each path once. -/
  mapPaths : s.mapPaths = (r.mapPaths.filterMap s.mapPath?).foldl Settings.insertPath
    (if r.rootName.isSome then
      (c.mapPaths.map fun path => s.rootName :: path.tail).foldl Settings.insertPath []
    else c.mapPaths)
  useView : s.useView = (r.useView || c.useView)
  policy : s.policy = if r.strict then .strict else c.policy
  typePrefix : s.typePrefix = c.typePrefix
  typeSuffix : s.typeSuffix = c.typeSuffix

/-- The settings with the dialect and the root of the line. -/
def Request.named (r : Request) (c : Settings) : Settings :=
  let c := r.dialect.elim c c.withDialect
  r.rootName.elim c c.withRootName

/-- What comes after the names changes the other fields. -/
theorem Request.settings_eq (r : Request) (c : Settings) :
    r.settings c =
      { r.named c with
        mapPaths := (r.mapPaths.filterMap (r.named c).mapPath?).foldl Settings.insertPath
          (r.named c).mapPaths
        useView := r.useView || (r.named c).useView
        policy := if r.strict then .strict else (r.named c).policy } := by
  have hsettings : r.settings c =
      (let c := r.mapPaths.foldl Settings.withMapPath (r.named c)
       let c := if r.useView then c.withUseView true else c
       if r.strict then c.withPolicy .strict else c) := rfl
  rw [hsettings, Settings.foldl_withMapPath, Settings.mapPaths_foldl_withMapPath]
  cases r.useView <;> cases r.strict <;> rfl

theorem Request.flagged (r : Request) (c : Settings) : r.Flagged c (r.settings c) := by
  have hpaths : (r.settings c).mapPath? = (r.named c).mapPath? := by
    rw [r.settings_eq c]
    exact Settings.mapPath?_of_dialect rfl rfl
  constructor
  case mapPaths =>
    rw [hpaths, r.settings_eq c]
    unfold Request.named
    cases r.rootName <;> cases r.dialect <;> rfl
  all_goals
    rw [r.settings_eq c]
    unfold Request.named
    cases r.rootName <;> cases r.dialect <;> rfl

example :
    let r : Request :=
      { rootName := some "Doc", mapPaths := ["users", "meta.by\\.id"], dialect := some .rust,
        useView := true, strict := true }
    r.settings .default =
      { rootName := ⟨"Doc"⟩, mapPaths := [[⟨"Doc"⟩, ⟨"users"⟩], [⟨"Doc"⟩, ⟨"meta"⟩, ⟨"by0x2eid"⟩]],
        useView := true, typePrefix := "", typeSuffix := "_t", policy := .strict,
        dialect := .rust } := by
  decide +kernel

end SchemaInference.Command
