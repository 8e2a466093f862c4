/-
Where the map paths of settings start. A path that is put in starts at the root, and naming the root
takes the paths along; but a change of the dialect gives the root a new name when the old one is
reserved there, and leaves the paths where they are. So the paths start at the root just as long as
no such change came while there were paths, since the root was named last (`changeAll_rooted_iff`).
A root renamed in this way fits every dialect, so another change of the dialect does not bring the
paths back.
-/
import SchemaInference.Proofs.Identifier.Dialects
import SchemaInference.Proofs.Settings.MapPaths
import Mathlib.Data.List.Induction

namespace SchemaInference.Settings

open Schema

/-! ## Changes -/

inductive Change where
  | rootName (raw : String)
  | mapPath (text : String)
  | useView (useView : Bool)
  | policy (policy : Policy)
  | dialect (dialect : Dialect)
  | typeAffixes (before after : String)
deriving DecidableEq, Repr

def change (c : Settings) : Change → Settings
  | .rootName raw => c.withRootName raw
  | .mapPath text => c.withMapPath text
  | .useView useView => c.withUseView useView
  | .policy policy => c.withPolicy policy
  | .dialect dialect => c.withDialect dialect
  | .typeAffixes before after => c.withTypeAffixes before after

def changeAll (c : Settings) (changes : List Change) : Settings := changes.foldl change c

theorem changeAll_append (c : Settings) (before after : List Change) :
    c.changeAll (before ++ after) = (c.changeAll before).changeAll after :=
  List.foldl_append

/-- The settings that changes start from. -/
inductive Given : Settings → Prop
  | default : Given .default
  | file {text : String} {c : Settings} (h : ofText? text = some c) : Given c

theorem Given.built {c : Settings} (h : c.Given) (changes : List Change) :
    (c.changeAll changes).Built := by
  induction changes using List.reverseRecOn with
  | nil =>
    cases h with
    | default => exact .default
    | file h => exact .file h
  | append_singleton changes a ih =>
    rw [changeAll_append]
    cases a with
    | rootName raw => exact ih.withRootName raw
    | mapPath text => exact ih.withMapPath text
    | useView useView => exact ih.withUseView useView
    | policy policy => exact ih.withPolicy policy
    | dialect dialect => exact ih.withDialect dialect
    | typeAffixes before after => exact ih.withTypeAffixes before after

/-! ## Rooted paths -/

/-- Every map path starts at the root. -/
def Rooted (c : Settings) : Prop := ∀ path ∈ c.mapPaths, path.head? = some c.rootName

instance (c : Settings) : Decidable c.Rooted := inferInstanceAs (Decidable (∀ path ∈ _, _))

/-- The dialect `d` has another name for the root. -/
def Renames (c : Settings) (d : Dialect) : Prop :=
  Identifier.sanitize d c.rootName.text ≠ c.rootName

theorem rooted_withRootName (c : Settings) (raw : String) : (c.withRootName raw).Rooted := by
  intro path hpath
  have h := mem_foldl_insertPath.1 hpath
  rw [List.mem_map] at h
  rcases h with h | ⟨q, -, rfl⟩
  · cases h
  · rfl

theorem rooted_withMapPath_iff {c : Settings} (text : String) :
    (c.withMapPath text).Rooted ↔ c.Rooted := by
  unfold Rooted
  rw [(rootName_withMapPath c text).1, mapPaths_withMapPath]
  constructor
  · intro h path hpath
    exact h path (mem_foldl_insertPath.2 (.inl hpath))
  · intro h path hpath
    rcases mem_foldl_insertPath.1 hpath with hpath | hpath
    · exact h path hpath
    · exact head?_of_mapPath? (Option.mem_toList.1 hpath)

/-- The paths of a file are rooted: its dialect and its root are settled before them. -/
theorem Given.rooted {c : Settings} (h : c.Given) : c.Rooted := by
  cases h with
  | default => exact fun _ h => nomatch h
  | @file text c h =>
    obtain ⟨f, -, rfl⟩ := Option.map_eq_some_iff.1 h
    intro path hpath
    rw [f.mapPaths_settings, mem_foldl_insertPath, List.mem_filterMap] at hpath
    obtain ⟨text, -, htext⟩ := hpath.resolve_left (List.not_mem_nil)
    exact head?_of_mapPath? htext

/-! ## A change of the dialect -/

/-- Paths that start at the root do so after a change of the dialect if it keeps the name of the
root, or if there are none. -/
theorem rooted_withDialect_iff {c : Settings} {d : Dialect} (hc : c.Rooted ∨ ¬ c.Renames d) :
    (c.withDialect d).Rooted ↔ c.Rooted ∧ (c.Renames d → c.mapPaths = []) := by
  by_cases hd : c.Renames d
  · have hr : c.Rooted := hc.resolve_right (not_not.2 hd)
    constructor
    · intro h
      refine ⟨hr, fun _ => List.eq_nil_iff_forall_not_mem.2 fun path hpath => ?_⟩
      -- the path would start at both names of the root
      have hnew := h path hpath
      rw [hr path hpath, Option.some_inj] at hnew
      exact hd hnew.symm
    · rintro ⟨-, hp⟩ path hpath
      have hnil : (c.withDialect d).mapPaths = [] := hp hd
      rw [hnil] at hpath
      cases hpath
  · have hroot : (c.withDialect d).rootName = c.rootName := not_not.1 hd
    unfold Rooted
    rw [hroot]
    exact (and_iff_left fun h => absurd h hd).symm

/-- No dialect has another name for a root that was renamed for a dialect. -/
theorem not_renames_withDialect {c : Settings} {d : Dialect} (hc : c.Built) (hd : c.Renames d)
    (d' : Dialect) : ¬ (c.withDialect d).Renames d' := by
  have hvalid : Identifier.isValid d' (Identifier.sanitize d c.rootName.text).text = true :=
    Identifier.isValid_sanitize_of_ne hc.isName_rootName hd
  exact not_not.2 (Identifier.sanitize_of_isValid hvalid)

/-! ## Histories -/

/-- Some change of the dialect renamed the root while there were map paths, and the root was not
named since. -/
def Uproots (c : Settings) (changes : List Change) : Prop :=
  ∃ before d after, changes = before ++ .dialect d :: after ∧
    (c.changeAll before).Renames d ∧ (c.changeAll before).mapPaths ≠ [] ∧
    ∀ raw, .rootName raw ∉ after

theorem uproots_append_iff {c : Settings} {changes : List Change} {a : Change} :
    c.Uproots (changes ++ [a]) ↔
      (c.Uproots changes ∧ ∀ raw, a ≠ .rootName raw) ∨
        ∃ d, a = .dialect d ∧ (c.changeAll changes).Renames d ∧
          (c.changeAll changes).mapPaths ≠ [] := by
  constructor
  · rintro ⟨before, d, after, heq, hd, hp, hafter⟩
    -- either the last change is the one that uproots, or it stands after that one
    rcases List.eq_nil_or_concat after with rfl | ⟨after, b, rfl⟩
    · obtain ⟨rfl, hb⟩ := List.append_inj' heq rfl
      cases hb
      exact .inr ⟨d, rfl, hd, hp⟩
    · rw [List.concat_eq_append, ← List.cons_append, ← List.append_assoc] at heq
      obtain ⟨rfl, hb⟩ := List.append_inj' heq rfl
      cases hb
      simp only [List.concat_eq_append, List.mem_append, List.mem_singleton, not_or] at hafter
      exact .inl ⟨⟨before, d, after, rfl, hd, hp, fun raw => (hafter raw).1⟩,
        fun raw h => (hafter raw).2 h.symm⟩
  · rintro (⟨⟨before, d, after, rfl, hd, hp, hafter⟩, ha⟩ | ⟨d, rfl, hd, hp⟩)
    · refine ⟨before, d, after ++ [a], by simp, hd, hp, fun raw hraw => ?_⟩
      rcases List.mem_append.1 hraw with hraw | hraw
      · exact hafter raw hraw
      · exact ha raw (List.mem_singleton.1 hraw).symm
    · exact ⟨changes, d, [], rfl, hd, hp, fun raw hraw => nomatch hraw⟩

theorem not_uproots_append_iff {c : Settings} {changes : List Change} {a : Change} :
    ¬ c.Uproots (changes ++ [a]) ↔
      (∃ raw, a = .rootName raw) ∨
        ¬ c.Uproots changes ∧
          ∀ d, a = .dialect d → (c.changeAll changes).Renames d →
            (c.changeAll changes).mapPaths = [] := by
  rw [uproots_append_iff]
  by_cases hroot : ∃ raw, a = .rootName raw
  · obtain ⟨raw, rfl⟩ := hroot
    simp
  · have hne : ∀ raw, a ≠ .rootName raw := not_exists.1 hroot
    rw [or_iff_right hroot]
    simp only [hne, ne_eq, not_false_eq_true, implies_true, and_true, not_or, not_exists, not_and,
      not_not]

/-! ## Along a history -/

/-- Naming the root roots the paths, and a change of the dialect may leave them behind. -/
theorem rooted_change_iff {c : Settings} (hc : c.Rooted ∨ ∀ d, ¬ c.Renames d) (a : Change) :
    (c.change a).Rooted ↔
      (∃ raw, a = .rootName raw) ∨
        c.Rooted ∧ ∀ d, a = .dialect d → c.Renames d → c.mapPaths = [] := by
  cases a with
  | rootName raw => exact iff_of_true (rooted_withRootName c raw) (.inl ⟨raw, rfl⟩)
  | dialect d =>
    simp only [reduceCtorEq, exists_false, false_or, Change.dialect.injEq, forall_eq']
    exact rooted_withDialect_iff (hc.imp_right fun h => h d)
  | mapPath text =>
    simp only [reduceCtorEq, exists_false, false_or, false_implies, implies_true, and_true]
    exact rooted_withMapPath_iff text
  | useView | policy | typeAffixes =>
    simp only [reduceCtorEq, exists_false, false_or, false_implies, implies_true, and_true]
    exact Iff.rfl

/-- Paths that are left behind have a root that fits every dialect. -/
theorem rooted_or_change {c : Settings} (hb : c.Built) (hc : c.Rooted ∨ ∀ d, ¬ c.Renames d)
    (a : Change) : (c.change a).Rooted ∨ ∀ d, ¬ (c.change a).Renames d := by
  cases a with
  | rootName raw => exact .inl (rooted_withRootName c raw)
  | dialect d =>
    by_cases hd : c.Renames d
    · exact .inr (not_renames_withDialect hb hd)
    · have hroot : (c.withDialect d).rootName = c.rootName := not_not.1 hd
      rcases hc with hr | hfits
      · exact .inl ((rooted_withDialect_iff (.inl hr)).2 ⟨hr, fun h => absurd h hd⟩)
      · right
        simpa only [change, Renames, hroot] using hfits
  | mapPath text =>
    rcases hc with hr | hfits
    · exact .inl ((rooted_withMapPath_iff text).2 hr)
    · right
      simpa only [change, Renames, (rootName_withMapPath c text).1] using hfits
  | useView | policy | typeAffixes => exact hc

theorem Built.ne_nil_of_mem_mapPaths {c : Settings} (h : c.Built) :
    ∀ path ∈ c.mapPaths, path ≠ [] := by
  refine Built.induction (P := fun c => ∀ path ∈ c.mapPaths, path ≠ []) ?_ ?_ ?_ ?_ ?_ ?_ ?_ h
  · exact fun path hpath => nomatch hpath
  · intro c raw _ path hpath hnil
    have hhead := rooted_withRootName c raw path hpath
    rw [hnil] at hhead
    cases hhead
  · intro c text hc path hpath hnil
    rw [mapPaths_withMapPath, mem_foldl_insertPath, Option.mem_toList] at hpath
    rcases hpath with hpath | hpath
    · exact hc path hpath hnil
    · have hhead := head?_of_mapPath? hpath
      rw [hnil] at hhead
      cases hhead
  · exact fun _ _ hc => hc
  · exact fun _ _ hc => hc
  · exact fun _ _ hc => hc
  · exact fun _ _ _ hc => hc

/-- The map paths are never empty, and they all start at the root unless a change of the dialect
renamed the root under them, after it was named last. -/
theorem changeAll_rooted_iff {c : Settings} (h : c.Given) (changes : List Change) :
    (∀ path ∈ (c.changeAll changes).mapPaths, path ≠ []) ∧
      ((c.changeAll changes).Rooted ↔ ¬ c.Uproots changes) := by
  refine ⟨(h.built changes).ne_nil_of_mem_mapPaths, ?_⟩
  suffices hboth : ((c.changeAll changes).Rooted ↔ ¬ c.Uproots changes) ∧
      ((c.changeAll changes).Rooted ∨ ∀ d, ¬ (c.changeAll changes).Renames d) from hboth.1
  induction changes using List.reverseRecOn with
  | nil =>
    refine ⟨iff_of_true h.rooted ?_, .inl h.rooted⟩
    rintro ⟨before, d, after, heq, -⟩
    exact absurd heq.symm (List.append_ne_nil_of_right_ne_nil before (by simp))
  | append_singleton changes a ih =>
    obtain ⟨hiff, hor⟩ := ih
    rw [changeAll_append]
    refine ⟨?_, rooted_or_change (h.built changes) hor a⟩
    have hstep := rooted_change_iff hor a
    rw [hiff] at hstep
    exact hstep.trans not_uproots_append_iff.symm

/-- A dialect that reserves the name of the root leaves the paths behind. -/
theorem not_rooted_after_dialect :
    Given default ∧ ¬ (default.changeAll [.rootName "self", .mapPath "a", .dialect .rust]).Rooted :=
  ⟨.default, by decide +kernel⟩

/-- Naming the root again takes them along. -/
theorem changeAll_rooted_iff_named_again :
    Given default ∧
      default.Uproots [.rootName "self", .mapPath "a", .dialect .rust] ∧
      ¬ default.Uproots [.rootName "self", .mapPath "a", .dialect .rust, .rootName "self"] := by
  refine ⟨.default, ?_, ?_⟩
  · have h := (changeAll_rooted_iff .default [.rootName "self", .mapPath "a", .dialect .rust]).2
    exact not_not.1 fun hn => absurd (h.2 hn) (by decide +kernel)
  · have h := changeAll_rooted_iff .default
      [.rootName "self", .mapPath "a", .dialect .rust, .rootName "self"]
    exact h.2.1 (by decide +kernel)

end SchemaInference.Settings
