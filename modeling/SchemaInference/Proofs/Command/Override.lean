/-
A dialect on the command line, on top of a settings file. The file has named the root and its map
paths by its own dialect when the other one comes. So what is loaded is what the same file with the
dialect in it would give just as far as the two dialects reserve the same words among these names
(`loadSettings_dialect`): the root differs when only the file's dialect reserves it, and the map
paths, if there are any, differ when any of their names or the root is reserved in one dialect only.
-/
import SchemaInference.Command.Report
import SchemaInference.Proofs.Command.Workspace
import SchemaInference.Proofs.Identifier.Dialects
import SchemaInference.Proofs.Settings.MapPaths
import Mathlib

namespace SchemaInference

open Schema

namespace Settings

/-! ## The paths of the same texts -/

section Paths

variable {c c' : Settings} {texts : List String}

/-- Each path that the texts give under the first settings, they also give under the second. -/
def PathsWithin (c c' : Settings) (texts : List String) : Prop :=
  ∀ text ∈ texts, ∀ path, c.mapPath? text = some path →
    ∃ other ∈ texts, c'.mapPath? other = some path

/-- Names in a path that both settings give fit both dialects. -/
theorem isValid_sanitize_of_paths
    (hroot : Identifier.isValid c'.dialect c'.rootName.text = true)
    (hsub : PathsWithin c c' texts)
    {text piece : String} (htext : text ∈ texts) (hne : text ≠ "") (hpiece : piece ∈ pieces text) :
    Identifier.isValid c'.dialect (c.sanitize piece).text = true := by
  obtain ⟨path, hpath⟩ := exists_mapPath? (c := c) hne
  obtain ⟨other, -, hother⟩ := hsub text htext path hpath
  exact isValid_of_mem_mapPath? hother hroot _ (sanitize_mem_of_mapPath? hpath hpiece)

/-- A path that both settings give starts at the root of both. -/
theorem rootName_eq_of_paths (hsub : PathsWithin c c' texts) {text : String}
    (htext : text ∈ texts) (hne : text ≠ "") : c.rootName = c'.rootName := by
  obtain ⟨path, hpath⟩ := exists_mapPath? (c := c) hne
  obtain ⟨other, -, hother⟩ := hsub text htext path hpath
  have hhead := head?_of_mapPath? hpath
  rw [head?_of_mapPath? hother, Option.some_inj] at hhead
  exact hhead.symm

/-- Where both settings give the same paths, they have the same name for every piece. -/
theorem sanitize_eq_of_paths (hroot : Identifier.isValid c.dialect c.rootName.text = true)
    (hroot' : Identifier.isValid c'.dialect c'.rootName.text = true)
    (hto : PathsWithin c c' texts) (hback : PathsWithin c' c texts) {text piece : String}
    (htext : text ∈ texts) (hpiece : piece ∈ pieces text) :
    c.sanitize piece = c'.sanitize piece := by
  by_cases hne : text = ""
  · subst hne
    have hempty : piece = "" := by simpa [pieces, splitDotted] using hpiece
    subst hempty
    exact Identifier.sanitize_empty c.dialect c'.dialect
  · exact Identifier.sanitize_eq_of_isValid
      (isValid_sanitize_of_paths hroot hback htext hne hpiece)
      (isValid_sanitize_of_paths hroot' hto htext hne hpiece)

/-- The same texts give the same paths under two settings if they are all empty, or if both settings
have the same root and the same name for every piece. -/
theorem foldl_insertPath_eq_iff (hroot : Identifier.isValid c.dialect c.rootName.text = true)
    (hroot' : Identifier.isValid c'.dialect c'.rootName.text = true) :
    (texts.filterMap c.mapPath?).foldl insertPath [] =
        (texts.filterMap c'.mapPath?).foldl insertPath [] ↔
      (∀ text ∈ texts, text = "") ∨
        c.rootName = c'.rootName ∧
          ∀ text ∈ texts, ∀ piece ∈ pieces text, c.sanitize piece = c'.sanitize piece := by
  constructor
  · intro heq
    have hmem : ∀ path, (∃ text ∈ texts, c.mapPath? text = some path) ↔
        ∃ text ∈ texts, c'.mapPath? text = some path := by
      intro path
      have h : path ∈ (texts.filterMap c.mapPath?).foldl insertPath [] ↔
          path ∈ (texts.filterMap c'.mapPath?).foldl insertPath [] := by rw [heq]
      simpa only [mem_foldl_insertPath, List.not_mem_nil, false_or, List.mem_filterMap] using h
    have hto : PathsWithin c c' texts := fun text ht path hp => (hmem path).1 ⟨text, ht, hp⟩
    have hback : PathsWithin c' c texts := fun text ht path hp => (hmem path).2 ⟨text, ht, hp⟩
    by_cases hall : ∀ text ∈ texts, text = ""
    · exact .inl hall
    · simp only [Classical.not_forall] at hall
      obtain ⟨text, htext, hne⟩ := hall
      refine .inr ⟨rootName_eq_of_paths hto htext hne, fun text htext piece hpiece => ?_⟩
      exact sanitize_eq_of_paths hroot hroot' hto hback htext hpiece
  · rintro (hall | ⟨hr, hp⟩)
    · have hnone : ∀ c : Settings, texts.filterMap c.mapPath? = [] := fun c =>
        List.filterMap_eq_nil_iff.2 fun text htext => hall text htext ▸ mapPath?_empty
      rw [hnone, hnone]
    · have hsame : ∀ text ∈ texts, c.mapPath? text = c'.mapPath? text := fun text htext =>
        mapPath?_congr hr (hp text htext)
      rw [List.filterMap_congr hsame]

end Paths

/-! ## Two dialects for one file -/

namespace File

variable (f : File) (d : Dialect)

/-- The same file with another dialect. -/
def inDialect : File := { f with dialect := some d }

/-- The root differs only if the file's dialect alone reserves its name. -/
theorem rootName_withDialect_iff :
    (f.settings.withDialect d).rootName = (f.inDialect d).settings.rootName ↔
      (f.dialectOr.reserves f.rootOr = true → d.reserves f.rootOr = true) := by
  have hother : (f.inDialect d).settings.rootName = Identifier.sanitize d f.rootOr :=
    (f.inDialect d).rootName_settings
  unfold withDialect
  rw [hother, f.rootName_settings]
  exact Identifier.sanitize_twice_iff

theorem isValid_rootName :
    Identifier.isValid f.settings.dialect f.settings.rootName.text = true := by
  rw [dialect_settings, rootName_settings]
  exact Identifier.isValid_sanitize ..

/-- The map paths differ if the dialects disagree about a name on any of them, the root included. -/
theorem mapPaths_withDialect_iff :
    (f.settings.withDialect d).mapPaths = (f.inDialect d).settings.mapPaths ↔
      (∀ text ∈ f.mapPaths, text = "") ∨
        ∀ name ∈ f.rootOr :: f.mapPaths.flatMap pieces,
          f.dialectOr.reserves name = d.reserves name := by
  have hroot : (f.inDialect d).settings.rootName = Identifier.sanitize d f.rootOr :=
    (f.inDialect d).rootName_settings
  have hdialect : (f.inDialect d).settings.dialect = d := (f.inDialect d).dialect_settings
  have hpaths : (f.inDialect d).settings.mapPaths =
      (f.mapPaths.filterMap (f.inDialect d).settings.mapPath?).foldl insertPath [] :=
    (f.inDialect d).mapPaths_settings
  show f.settings.mapPaths = _ ↔ _
  rw [hpaths, f.mapPaths_settings,
    foldl_insertPath_eq_iff f.isValid_rootName (f.inDialect d).isValid_rootName, hroot,
    f.rootName_settings]
  simp only [List.forall_mem_cons, List.forall_mem_flatMap, sanitize, hdialect,
    f.dialect_settings, Identifier.sanitize_eq_iff]

/-- A word that only the dialect on top reserves. -/
theorem mapPaths_withDialect_reserved :
    let f : File := { mapPaths := ["type"] }
    (f.settings.withDialect .rust).mapPaths = [[⟨"root_object"⟩, ⟨"type"⟩]] ∧
      (f.inDialect .rust).settings.mapPaths = [[⟨"root_object"⟩, ⟨"_jsontype"⟩]] := by
  decide +kernel

end File

end Settings

/-! ## The command -/

namespace Command

open Settings

/-- Of the settings, the request says no more than the file and perhaps the dialect. -/
structure Request.Bare (r : Request) (path : String) (dialect : Option Dialect) : Prop where
  settingsFile : r.settingsFile = some path
  dialect : r.dialect = dialect
  rootName : r.rootName = none
  mapPaths : r.mapPaths = []
  useView : r.useView = false
  strict : r.strict = false

theorem Request.Bare.settings {r : Request} {path : String} {dialect : Option Dialect}
    (h : r.Bare path dialect) (c : Settings) :
    r.settings c = dialect.elim c c.withDialect := by
  unfold Request.settings
  rw [h.dialect, h.rootName, h.mapPaths, h.useView, h.strict]
  rfl

/-- What is loaded: the settings of the file, with the dialect of the request on top. -/
theorem loadSettings_bare {given : Workspace.Expansion} {w : Workspace} {r : Request} {path text : String}
    {dialect : Option Dialect} {f : File} (hr : r.Bare path dialect)
    (hread : w.readFile path = .ok text) (hf : File.ofText? text = some f) :
    loadSettings (Workspace.host given) r w =
      (.ok (dialect.elim f.settings f.settings.withDialect), w) := by
  have htext : Settings.ofText? text = some f.settings := by
    rw [Settings.ofText?, hf, Option.map_some]
  simp only [loadSettings, hr.settingsFile, Workspace.bind_readFile, hread, htext, hr.settings]
  rfl

/-- With a file and a dialect on the command line, what is loaded has that dialect. Its root and its
map paths are those that the same file with the dialect in it gives, unless one dialect alone
reserves a name: for the root only a word of the file's dialect makes a difference, for the map
paths any word of the two. -/
theorem loadSettings_dialect {given : Workspace.Expansion} {w : Workspace} {r r' : Request}
    {path path' text text' : String} {d : Dialect} {f : File} (hr : r.Bare path (some d)) (hr' : r'.Bare path' none)
    (hread : w.readFile path = .ok text) (hread' : w.readFile path' = .ok text')
    (hf : File.ofText? text = some f) (hf' : File.ofText? text' = some (f.inDialect d)) :
    ∃ c c', loadSettings (Workspace.host given) r w = (.ok c, w) ∧
      loadSettings (Workspace.host given) r' w = (.ok c', w) ∧
      c.dialect = d ∧ c'.dialect = d ∧
      (c.rootName = c'.rootName ↔
        (f.dialectOr.reserves f.rootOr = true → d.reserves f.rootOr = true)) ∧
      (c.mapPaths = c'.mapPaths ↔
        (∀ text ∈ f.mapPaths, text = "") ∨
          ∀ name ∈ f.rootOr :: f.mapPaths.flatMap pieces,
            f.dialectOr.reserves name = d.reserves name) :=
  ⟨f.settings.withDialect d, (f.inDialect d).settings, loadSettings_bare hr hread hf,
    loadSettings_bare hr' hread' hf', rfl, (f.inDialect d).dialect_settings,
    f.rootName_withDialect_iff d, f.mapPaths_withDialect_iff d⟩

/-- A settings file, and the same file with a dialect in it. -/
def twoFiles : Workspace :=
  ⟨[], [(["c"], .ok "\x7b\"kv_paths\":[\"type\"]\x7d"),
    (["r"], .ok "\x7b\"kv_paths\":[\"type\"],\"dialect\":\"rust\"\x7d")], .ok ""⟩

/-- A name in a map path that only the dialect of the command line reserves stays as it was. -/
theorem loadSettings_dialect_reserved :
    let host := Workspace.host fun _ => none
    ∃ c c', loadSettings host { settingsFile := some "c", dialect := some .rust } twoFiles =
        (.ok c, twoFiles) ∧
      loadSettings host { settingsFile := some "r" } twoFiles = (.ok c', twoFiles) ∧
      c.rootName = c'.rootName ∧ c.mapPaths ≠ c'.mapPaths := by
  intro host
  have hr : Request.Bare { settingsFile := some "c", dialect := some .rust } "c" (some .rust) :=
    ⟨rfl, rfl, rfl, rfl, rfl, rfl⟩
  have hr' : Request.Bare { settingsFile := some "r" } "r" none := ⟨rfl, rfl, rfl, rfl, rfl, rfl⟩
  have hread : twoFiles.readFile "c" = .ok "\x7b\"kv_paths\":[\"type\"]\x7d" := by
    cbv
  have hread' : twoFiles.readFile "r" =
      .ok "\x7b\"kv_paths\":[\"type\"],\"dialect\":\"rust\"\x7d" := by
    cbv
  obtain ⟨c, c', hc, hc', -, -, hroot, hpaths⟩ :=
    loadSettings_dialect (f := { mapPaths := ["type"] }) hr hr' hread hread' (by decide +kernel)
      (by decide +kernel)
  refine ⟨c, c', hc, hc', hroot.2 (by decide +kernel), hpaths.not.2 ?_⟩
  decide +kernel

end Command

end SchemaInference
