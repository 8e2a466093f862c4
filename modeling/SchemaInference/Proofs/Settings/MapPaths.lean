/-
The map paths of settings: those that were there and, in front of the names that a text gives, the
root (`mapPaths_foldl_withMapPath`). A path that is there already is not put in again, so a list of
texts gives the same paths as a list of names wherever the two stand for the same paths.
-/
import SchemaInference.Proofs.Settings.Built

namespace SchemaInference.Settings

open Schema

variable {c : Settings}

/-! ## Lists of paths -/

@[simp] theorem mem_insertPath {paths : List Path} {path q : Path} :
    q ∈ insertPath paths path ↔ q ∈ paths ∨ q = path := by
  unfold insertPath
  split
  · constructor
    · exact .inl
    · rintro (h | rfl) <;> assumption
  · rw [List.mem_append, List.mem_singleton]

theorem mem_foldl_insertPath {paths new : List Path} {q : Path} :
    q ∈ new.foldl insertPath paths ↔ q ∈ paths ∨ q ∈ new := by
  induction new generalizing paths with
  | nil => simp
  | cons path new ih => rw [List.foldl_cons, ih, mem_insertPath, List.mem_cons, or_assoc]

/-! ## The path of a text -/

/-- The pieces between the dots, as texts. -/
def pieces (text : String) : List String := (splitDotted text.toList).map String.ofList

theorem mapPath?_eq (text : String) : c.mapPath? text =
    if text = "" then none
    else if ((pieces text).map c.sanitize).head? = some c.rootName then
      some ((pieces text).map c.sanitize)
    else some (c.rootName :: (pieces text).map c.sanitize) := by
  have hnames : ((splitDotted text.toList).map fun piece => c.sanitize (String.ofList piece)) =
      (pieces text).map c.sanitize := by
    rw [pieces, List.map_map]
    rfl
  unfold mapPath?
  rw [hnames]
  simp only [String.isEmpty_iff]

theorem mapPath?_empty : c.mapPath? "" = none := by
  rw [mapPath?_eq, if_pos rfl]

theorem exists_mapPath? {text : String} (h : text ≠ "") : ∃ path, c.mapPath? text = some path := by
  rw [mapPath?_eq, if_neg h]
  split <;> exact ⟨_, rfl⟩

/-- A path is made of the names of the pieces, with the root in front if it is not there already. -/
theorem mapPath?_cases {text : String} {path : Path} (h : c.mapPath? text = some path) :
    path.head? = some c.rootName ∧
      (path = (pieces text).map c.sanitize ∨
        path = c.rootName :: (pieces text).map c.sanitize) := by
  rw [mapPath?_eq] at h
  split at h
  · cases h
  · split at h <;> rename_i hhead <;> cases h
    · exact ⟨hhead, .inl rfl⟩
    · exact ⟨rfl, .inr rfl⟩

/-- A path starts at the root. -/
theorem head?_of_mapPath? {text : String} {path : Path} (h : c.mapPath? text = some path) :
    path.head? = some c.rootName :=
  (mapPath?_cases h).1

theorem sanitize_mem_of_mapPath? {text : String} {path : Path} (h : c.mapPath? text = some path)
    {piece : String} (hp : piece ∈ pieces text) : c.sanitize piece ∈ path := by
  have hmem : c.sanitize piece ∈ (pieces text).map c.sanitize := List.mem_map_of_mem hp
  rcases (mapPath?_cases h).2 with rfl | rfl
  · exact hmem
  · exact List.mem_cons_of_mem _ hmem

/-- The names in a path are valid, since the root is. -/
theorem isValid_of_mem_mapPath? {text : String} {path : Path} (h : c.mapPath? text = some path)
    (hroot : Identifier.isValid c.dialect c.rootName.text = true) :
    ∀ n ∈ path, Identifier.isValid c.dialect n.text = true := by
  have hnames : ∀ n ∈ (pieces text).map c.sanitize, Identifier.isValid c.dialect n.text = true := by
    intro n hn
    obtain ⟨piece, -, rfl⟩ := List.mem_map.1 hn
    exact Identifier.isValid_sanitize c.dialect piece
  rcases (mapPath?_cases h).2 with rfl | rfl
  · exact hnames
  · exact List.forall_mem_cons.2 ⟨hroot, hnames⟩

/-- Only the root and the names of the pieces decide how a text is read. -/
theorem mapPath?_congr {c c' : Settings} {text : String} (hr : c'.rootName = c.rootName)
    (hp : ∀ piece ∈ pieces text, c'.sanitize piece = c.sanitize piece) :
    c'.mapPath? text = c.mapPath? text := by
  rw [mapPath?_eq, mapPath?_eq, hr, List.map_congr_left hp]

theorem mapPath?_of_dialect {c c' : Settings} (hr : c'.rootName = c.rootName)
    (hd : c'.dialect = c.dialect) : c'.mapPath? = c.mapPath? := by
  funext text
  refine mapPath?_congr hr fun piece _ => ?_
  unfold sanitize
  rw [hd]

theorem mapPaths_withMapPath (text : String) :
    (c.withMapPath text).mapPaths = (c.mapPath? text).toList.foldl insertPath c.mapPaths := by
  unfold withMapPath
  cases c.mapPath? text <;> rfl

/-- The paths of a list of texts, each once. -/
theorem mapPaths_foldl_withMapPath (texts : List String) (c : Settings) :
    (texts.foldl withMapPath c).mapPaths =
      (texts.filterMap c.mapPath?).foldl insertPath c.mapPaths := by
  induction texts generalizing c with
  | nil => rfl
  | cons text texts ih =>
    obtain ⟨hr, hd⟩ := rootName_withMapPath c text
    rw [List.foldl_cons, ih, mapPath?_of_dialect hr hd, mapPaths_withMapPath, List.filterMap_cons]
    cases c.mapPath? text <;> rfl

/-- Nothing but the paths is changed when paths are put in. -/
theorem foldl_withMapPath (texts : List String) (c : Settings) :
    texts.foldl withMapPath c = { c with mapPaths := (texts.foldl withMapPath c).mapPaths } := by
  induction texts generalizing c with
  | nil => rfl
  | cons text texts ih =>
    have hone : c.withMapPath text = { c with mapPaths := (c.withMapPath text).mapPaths } := by
      unfold withMapPath
      cases c.mapPath? text <;> rfl
    rw [List.foldl_cons, ih, hone]

theorem rootName_foldl_withMapPath (texts : List String) (c : Settings) :
    (texts.foldl withMapPath c).rootName = c.rootName ∧
      (texts.foldl withMapPath c).dialect = c.dialect := by
  rw [foldl_withMapPath]
  exact ⟨rfl, rfl⟩

/-! ## Files -/

theorem withDialect_default : default.withDialect .cpp = default := by
  decide +kernel

namespace File

variable (f : File)

/-- The dialect that the names of a file are read in. -/
def dialectOr : Dialect := f.dialect.getD .cpp

/-- The text that names the root. -/
def rootOr : String := f.rootName.getD "root_object"

/-- The settings of a file before its map paths. -/
def named : Settings :=
  let c := default.withDialect f.dialectOr
  f.rootName.elim c c.withRootName

theorem mapPaths_named : f.named.mapPaths = [] := by
  unfold named
  cases f.rootName <;> rfl

theorem dialect_named : f.named.dialect = f.dialectOr := by
  unfold named
  cases f.rootName <;> rfl

theorem rootName_named : f.named.rootName = Identifier.sanitize f.dialectOr f.rootOr := by
  unfold named rootOr
  cases f.rootName <;> rfl

/-- The fields that come after the map paths change neither the names nor the paths. -/
theorem settings_named :
    f.settings.rootName = f.named.rootName ∧ f.settings.dialect = f.named.dialect ∧
      f.settings.mapPaths = (f.mapPaths.filterMap f.named.mapPath?).foldl insertPath [] := by
  have hc : f.dialect.elim default default.withDialect =
      default.withDialect f.dialectOr := by
    unfold dialectOr
    cases f.dialect with
    | none => exact withDialect_default.symm
    | some d => rfl
  obtain ⟨hr, hd⟩ := rootName_foldl_withMapPath f.mapPaths f.named
  have hp := mapPaths_foldl_withMapPath f.mapPaths f.named
  rw [mapPaths_named] at hp
  unfold settings
  rw [hc]
  exact ⟨hr, hd, hp⟩

theorem dialect_settings : f.settings.dialect = f.dialectOr := by
  rw [f.settings_named.2.1, f.dialect_named]

/-- The root has the name that the file gives, else that of the default. -/
theorem rootName_settings : f.settings.rootName = Identifier.sanitize f.dialectOr f.rootOr := by
  rw [f.settings_named.1, f.rootName_named]

/-- The paths of a file are those of its texts, each once. -/
theorem mapPaths_settings :
    f.settings.mapPaths = (f.mapPaths.filterMap f.settings.mapPath?).foldl insertPath [] := by
  obtain ⟨hr, hd, hp⟩ := f.settings_named
  rw [hp, mapPath?_of_dialect hr hd]

end File

end SchemaInference.Settings
