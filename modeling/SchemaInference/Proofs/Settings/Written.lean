/-
Map paths written out. A name is written with a backslash in front of each dot and each backslash,
and the names of a path with a dot between each two (`writePath`). The pieces that are read are the
names again, whatever characters they have (`pieces_writePath`), so every path of member names can be
asked for, with the root in front of it or without (`Built.mapPath?_writePath`).
-/
import SchemaInference.Proofs.Settings.MapPaths

namespace SchemaInference.Settings

open Schema

/-! ## Writing -/

def escapeChar (c : Char) : List Char := if c = '.' ∨ c = '\\' then ['\\', c] else [c]

/-- The name with a backslash in front of each dot and each backslash. -/
def escapeName (name : String) : String := String.ofList (name.toList.flatMap escapeChar)

/-- The names, each of them escaped, with a dot between each two. -/
def writePath (names : List String) : String := ".".intercalate (names.map escapeName)

/-! ## Reading -/

theorem splitDotted_escapeChar (c : Char) (cs : List Char) :
    splitDotted (escapeChar c ++ cs) = consFirst c (splitDotted cs) := by
  by_cases h : c = '.' ∨ c = '\\'
  · rw [escapeChar, if_pos h]
    rfl
  · rw [escapeChar, if_neg h, List.singleton_append]
    rw [not_or] at h
    exact splitDotted.eq_5 c cs (fun hb _ => h.2 hb) (fun _ _ hb _ => h.2 hb) h.1

theorem foldr_consFirst (cs piece : List Char) (pieces : List (List Char)) :
    cs.foldr consFirst (piece :: pieces) = (cs ++ piece) :: pieces := by
  induction cs with
  | nil => rfl
  | cons c cs ih =>
    rw [List.foldr_cons, ih]
    rfl

/-- An escaped name ends just where the next dot stands, or at the end. -/
theorem splitDotted_escaped (name : List Char) (cs : List Char) :
    splitDotted (name.flatMap escapeChar ++ cs) = name.foldr consFirst (splitDotted cs) := by
  induction name with
  | nil => rfl
  | cons c name ih =>
    rw [List.flatMap_cons, List.append_assoc, splitDotted_escapeChar, ih, List.foldr_cons]

theorem splitDotted_intercalate {names : List (List Char)} (h : names ≠ []) :
    splitDotted (['.'].intercalate (names.map (·.flatMap escapeChar))) = names := by
  induction names with
  | nil => exact absurd rfl h
  | cons name names ih =>
    cases names with
    | nil =>
      rw [List.map_singleton, List.intercalate_singleton,
        ← List.append_nil (name.flatMap escapeChar), splitDotted_escaped, splitDotted,
        foldr_consFirst, List.append_nil]
    | cons name' names =>
      rw [List.map_cons, List.map_cons, List.intercalate_cons_cons, List.append_assoc,
        splitDotted_escaped, ← List.map_cons, List.singleton_append, splitDotted,
        ih (List.cons_ne_nil _ _), foldr_consFirst, List.append_nil]

/-- The names that were written are read again. -/
theorem pieces_writePath {names : List String} (h : names ≠ []) :
    pieces (writePath names) = names := by
  have hchars : (writePath names).toList =
      ['.'].intercalate ((names.map String.toList).map (·.flatMap escapeChar)) := by
    unfold writePath escapeName
    rw [String.toList_intercalate, List.map_map, List.map_map]
    simp only [Function.comp_def, String.toList_ofList]
    rfl
  unfold pieces
  rw [hchars, splitDotted_intercalate (by simpa using h), List.map_map]
  simp

/-- Only a name that is empty, by itself, is written as nothing. -/
theorem writePath_ne_empty {names : List String} (h : names ≠ []) (h' : names ≠ [""]) :
    writePath names ≠ "" := by
  intro hempty
  have hnames := pieces_writePath h
  rw [hempty] at hnames
  exact h' hnames.symm

/-- The root, followed by any names of members, is written as the path of the sanitized names; and
without the root the names are written as the same path, unless there are none, or just an empty one,
or the first of them is taken for the root. -/
theorem Built.mapPath?_writePath {c : Settings} (h : c.Built) (names : List String) :
    c.mapPath? (writePath (c.rootName.text :: names)) =
        some (c.rootName :: names.map c.sanitize) ∧
      (names ≠ [] → names ≠ [""] → (names.map c.sanitize).head? ≠ some c.rootName →
        c.mapPath? (writePath names) = some (c.rootName :: names.map c.sanitize)) := by
  constructor
  · have hroot : (c.rootName.text :: names).map c.sanitize = c.rootName :: names.map c.sanitize := by
      rw [List.map_cons, h.sanitize_rootName]
    -- the text of the root is not empty, since an empty text is no name
    have hne : c.rootName.text ≠ "" := by
      intro hempty
      have hvalid := h.isValid_rootName
      rw [hempty] at hvalid
      cases hvalid
    have htext : writePath (c.rootName.text :: names) ≠ "" :=
      writePath_ne_empty (List.cons_ne_nil _ _) fun hnil => hne (List.cons.inj hnil).1
    rw [mapPath?_eq, if_neg htext, pieces_writePath (List.cons_ne_nil _ _), hroot, List.head?_cons,
      if_pos rfl]
  · intro hnil hempty hhead
    rw [mapPath?_eq, if_neg (writePath_ne_empty hnil hempty), pieces_writePath hnil, if_neg hhead]

/-- The names of a path may be empty, have dots and backslashes, or be reserved words. -/
theorem Built.mapPath?_writePath_escapes :
    let c := (Settings.default.withDialect .rust).withRootName "a.b"
    let names := ["", "x.y\\", "\\u0041", "type"]
    let path : Path := [⟨"a0x2eb"⟩, ⟨"_json"⟩, ⟨"x0x2ey0x5c"⟩, ⟨"_json0x0041"⟩, ⟨"_jsontype"⟩]
    c.Built ∧ names ≠ [] ∧ names ≠ [""] ∧ (names.map c.sanitize).head? ≠ some c.rootName ∧
      c.mapPath? "a0x2eb..x\\.y\\\\.\\\\u0041.type" = some path ∧
      c.mapPath? ".x\\.y\\\\.\\\\u0041.type" = some path := by
  intro c names path
  have hc : c.Built := (Built.default.withDialect .rust).withRootName "a.b"
  have hhead : (names.map c.sanitize).head? ≠ some c.rootName := by decide +kernel
  obtain ⟨hrooted, hbare⟩ := hc.mapPath?_writePath names
  have hbare := hbare (by decide) (by decide) hhead
  have hpath : c.rootName :: names.map c.sanitize = path := by decide +kernel
  have htext : writePath (c.rootName.text :: names) = "a0x2eb..x\\.y\\\\.\\\\u0041.type" := by
    decide +kernel
  have htext' : writePath names = ".x\\.y\\\\.\\\\u0041.type" := by decide +kernel
  rw [htext, hpath] at hrooted
  rw [htext', hpath] at hbare
  exact ⟨hc, by decide, by decide, hhead, hrooted, hbare⟩

end SchemaInference.Settings
