/-
Naming the root before or after map paths are put in. The root is put in front of a path when it is
read, and a new root takes its place in the paths there are (`reroot`); so the order does not matter
for texts whose first name is not taken for the root, neither for the old one nor for the new one
(`withRootName_foldl_withMapPath`). Paths that start at the root stay apart when it is renamed.
-/
import Mathlib.Data.List.Nodup
import SchemaInference.Proofs.Settings.Rooted

namespace SchemaInference.Settings

open Schema

variable {c : Settings}

/-! ## Lists of paths, each once -/

theorem insertPath_of_mem {paths : List Path} {path : Path} (h : path ∈ paths) :
    insertPath paths path = paths := if_pos h

theorem insertPath_of_not_mem {paths : List Path} {path : Path} (h : path ∉ paths) :
    insertPath paths path = paths ++ [path] := if_neg h

theorem nodup_insertPath {paths : List Path} (h : paths.Nodup) (path : Path) :
    (insertPath paths path).Nodup := by
  by_cases hp : path ∈ paths
  · rwa [insertPath_of_mem hp]
  · rw [insertPath_of_not_mem hp]
    refine List.nodup_append.2 ⟨h, List.nodup_singleton path, fun q hq q' hq' => ?_⟩
    rw [List.mem_singleton] at hq'
    rintro rfl
    exact hp (hq' ▸ hq)

theorem nodup_foldl_insertPath {paths new : List Path} (h : paths.Nodup) :
    (new.foldl insertPath paths).Nodup := by
  induction new generalizing paths with
  | nil => exact h
  | cons path new ih => exact ih (nodup_insertPath h path)

/-- Paths that are new and differ from each other are all put at the end. -/
theorem foldl_insertPath_of_nodup {paths new : List Path} (h : (paths ++ new).Nodup) :
    new.foldl insertPath paths = paths ++ new := by
  induction new generalizing paths with
  | nil => exact (List.append_nil paths).symm
  | cons path new ih =>
    have hnew : path ∉ paths := fun hp =>
      (List.nodup_append.1 h).2.2 path hp path (List.mem_cons_self ..) rfl
    rw [List.append_cons] at h ⊢
    rw [List.foldl_cons, insertPath_of_not_mem hnew, ih h]

/-- What is done to each path can be done before the paths are put together or afterwards. -/
theorem foldl_insertPath_map (f : Path → Path) (paths new done : List Path) :
    ((new.foldl insertPath paths).map f).foldl insertPath done =
      (new.map f).foldl insertPath ((paths.map f).foldl insertPath done) := by
  induction new generalizing paths with
  | nil => rfl
  | cons path new ih =>
    rw [List.foldl_cons, ih, List.map_cons, List.foldl_cons]
    by_cases hp : path ∈ paths
    · -- then its image is there as well
      have hf : f path ∈ (paths.map f).foldl insertPath done :=
        mem_foldl_insertPath.2 (.inr (List.mem_map_of_mem hp))
      rw [insertPath_of_mem hp, insertPath_of_mem hf]
    · rw [insertPath_of_not_mem hp, List.map_append, List.foldl_append]
      rfl

/-! ## Another root -/

/-- The path with `root` in place of its first name. -/
def reroot (root : Identifier) (path : Path) : Path := root :: path.tail

theorem reroot_inj {root root' : Identifier} {path path' : Path} (h : path.head? = some root)
    (h' : path'.head? = some root) (he : reroot root' path = reroot root' path') :
    path = path' := by
  obtain ⟨names, rfl⟩ := List.head?_eq_some_iff.1 h
  obtain ⟨names', rfl⟩ := List.head?_eq_some_iff.1 h'
  exact congrArg (root :: ·) (List.cons.inj he).2

/-- Paths that start at the root are each rerooted, and none of them is lost. -/
theorem mapPaths_withRootName (hc : c.Rooted) (hn : c.mapPaths.Nodup) (raw : String) :
    (c.withRootName raw).mapPaths = c.mapPaths.map (reroot (c.sanitize raw)) := by
  have hmap : (c.mapPaths.map (reroot (c.sanitize raw))).Nodup :=
    List.Nodup.map_on (fun path hp path' hp' => reroot_inj (hc path hp) (hc path' hp')) hn
  exact @foldl_insertPath_of_nodup [] _ hmap

/-- The name that a text starts with; none for an empty text. -/
def firstName? (c : Settings) (text : String) : Option Identifier :=
  if text = "" then none else ((pieces text).map c.sanitize).head?

/-- A text that does not start with the root is read with the root in front. -/
theorem mapPath?_of_firstName? {text : String} (h : c.firstName? text ≠ some c.rootName) :
    c.mapPath? text =
      if text = "" then none else some (c.rootName :: (pieces text).map c.sanitize) := by
  rw [mapPath?_eq]
  unfold firstName? at h
  by_cases ht : text = ""
  · rw [if_pos ht, if_pos ht]
  · rw [if_neg ht] at h
    rw [if_neg ht, if_neg ht, if_neg h]

/-- A text is read from the new root on just as it was from the old one. -/
theorem mapPath?_withRootName {raw text : String} (h : c.firstName? text ≠ some c.rootName)
    (h' : c.firstName? text ≠ some (c.sanitize raw)) :
    (c.withRootName raw).mapPath? text = (c.mapPath? text).map (reroot (c.sanitize raw)) := by
  rw [mapPath?_of_firstName? h, mapPath?_of_firstName? (c := c.withRootName raw) h']
  by_cases ht : text = ""
  · rw [if_pos ht, if_pos ht]
    rfl
  · rw [if_neg ht, if_neg ht]
    rfl

/-! ## Renaming and putting in -/

theorem rooted_foldl_withMapPath (hc : c.Rooted) (texts : List String) :
    (texts.foldl withMapPath c).Rooted := by
  induction texts generalizing c with
  | nil => exact hc
  | cons text texts ih => exact ih ((rooted_withMapPath_iff text).2 hc)

/-- Where the paths start at the root and no text starts with the old root or the new one, it is the
same to put in the texts and then to name the root, or the other way round; and the renaming leaves
as many paths as there are, each in its place. -/
theorem withRootName_foldl_withMapPath (hc : c.Rooted) (raw : String) {texts : List String}
    (h : ∀ text ∈ texts, ∀ name ∈ c.firstName? text, name ≠ c.rootName ∧ name ≠ c.sanitize raw) :
    (texts.foldl withMapPath c).withRootName raw =
        texts.foldl withMapPath (c.withRootName raw) ∧
      (c.mapPaths.Nodup → ((texts.foldl withMapPath c).withRootName raw).mapPaths =
        (texts.foldl withMapPath c).mapPaths.map (reroot (c.sanitize raw))) := by
  have hread : ∀ text ∈ texts, (c.withRootName raw).mapPath? text =
      (c.mapPath? text).map (reroot (c.sanitize raw)) := fun text ht =>
    mapPath?_withRootName (fun hroot => (h text ht _ hroot).1 rfl)
      fun hroot => (h text ht _ hroot).2 rfl
  -- either way, the old paths come first and then those of the texts, all of them from the new root
  have hpaths : ((texts.foldl withMapPath c).mapPaths.map (reroot (c.sanitize raw))).foldl
      insertPath [] = (texts.foldl withMapPath (c.withRootName raw)).mapPaths := by
    rw [mapPaths_foldl_withMapPath, mapPaths_foldl_withMapPath, foldl_insertPath_map,
      List.map_filterMap, List.filterMap_congr hread]
    rfl
  constructor
  · rw [foldl_withMapPath texts (c.withRootName raw), ← hpaths, foldl_withMapPath texts c]
    rfl
  · intro hn
    have hnodup : (texts.foldl withMapPath c).mapPaths.Nodup := by
      rw [mapPaths_foldl_withMapPath]
      exact nodup_foldl_insertPath hn
    have hmap := mapPaths_withRootName (rooted_foldl_withMapPath hc texts) hnodup raw
    rwa [sanitize, (rootName_foldl_withMapPath texts c).2] at hmap

/-- A path that is there already, one that is put in twice, and a text without a name. -/
theorem withRootName_foldl_withMapPath_twice :
    let c := (default.withRootName "Doc").withMapPath "x"
    let texts := ["a.Doc", "", "Doc2", "x", "a.Doc"]
    let paths : List Path := [[⟨"_json1"⟩, ⟨"x"⟩], [⟨"_json1"⟩, ⟨"a"⟩, ⟨"Doc"⟩], [⟨"_json1"⟩, ⟨"Doc2"⟩]]
    c.Rooted ∧ c.mapPaths.Nodup ∧
      (∀ text ∈ texts, ∀ name ∈ c.firstName? text, name ≠ c.rootName ∧ name ≠ c.sanitize "1") ∧
      ((texts.foldl withMapPath c).withRootName "1").mapPaths = paths ∧
      (texts.foldl withMapPath (c.withRootName "1")).mapPaths = paths := by
  intro c texts paths
  have hc : c.Rooted := by decide +kernel
  have hn : c.mapPaths.Nodup := by decide +kernel
  have h : ∀ text ∈ texts, ∀ name ∈ c.firstName? text,
      name ≠ c.rootName ∧ name ≠ c.sanitize "1" := by decide +kernel
  obtain ⟨hsame, hmap⟩ := withRootName_foldl_withMapPath hc "1" h
  have hpaths : (texts.foldl withMapPath c).mapPaths.map (reroot (c.sanitize "1")) = paths := by
    decide +kernel
  rw [← hsame, hmap hn, hpaths]
  exact ⟨hc, hn, h, rfl, rfl⟩

end SchemaInference.Settings
