/-
What a tree is printed as. `Tree.printed` says it line by line: a leaf is one line, and so is a list or
record without content; any other is opened and closed on lines of its own, with its parts between
them one level deeper and a comma after each part but the last. The printer, which puts the text
together part by part, prints just these lines (`pretty_eq_printed`). What stands in quotes is told by
the reader: a character that it would not take for itself is written as the escape that it reads as
that character (`quote_eq_quoted`).
-/
import SchemaInference.Text.Escape
import SchemaInference.View.Tree
import Mathlib

namespace SchemaInference

namespace Tree

/-- Induction on trees: the items of a list and the fields of a record are all below it. -/
@[elab_as_elim]
theorem induction {P : Tree → Prop} (boolean : ∀ b, P (.boolean b)) (text : ∀ s, P (.text s))
    (list : ∀ items, (∀ t ∈ items, P t) → P (.list items))
    (record : ∀ fields, (∀ f ∈ fields, P f.2) → P (.record fields)) (t : Tree) : P t :=
  Tree.rec (motive_1 := P) (motive_2 := fun items => ∀ t ∈ items, P t)
    (motive_3 := fun fields => ∀ f ∈ fields, P f.2) (motive_4 := fun f => P f.2) boolean text list
    record (fun _ h => nomatch h) (fun _ _ ht hi => List.forall_mem_cons.2 ⟨ht, hi⟩)
    (fun _ h => nomatch h) (fun _ _ hf hfs => List.forall_mem_cons.2 ⟨hf, hfs⟩) (fun _ _ h => h) t

/-! ## Strings -/

/-- A character that may not stand in quotes as itself. -/
def isSpecial (c : Char) : Bool := c == '"' || c == '\\' || c.toNat < 0x20

/-- A character in quotes. One that needs an escape is written as the letter that the reader takes for
it after a backslash, or for want of one by its number in four digits. -/
def spelled (c : Char) : List Char :=
  if isSpecial c then
    match ['"', '\\', 'b', 'f', 'n', 'r', 't'].find? (Text.shortEscape? · = some c) with
    | some letter => ['\\', letter]
    | none => ['\\', 'u'] ++ (Nat.toDigits 16 c.toNat).leftpad 4 '0'
  else [c]

def quoted (s : String) : String := "\"" ++ String.ofList (s.toList.flatMap spelled) ++ "\""

theorem escapeChar_of_lt : ∀ n < 0x20, escapeChar (Char.ofNat n) = spelled (Char.ofNat n) := by
  decide

/-- Each character is written the way the reader tells. -/
theorem escapeChar_eq_spelled (c : Char) : escapeChar c = spelled c := by
  by_cases hc : c.toNat < 0x20
  · rw [← Char.ofNat_toNat c]
    exact escapeChar_of_lt _ hc
  · by_cases hs : c = '"' ∨ c = '\\'
    · rcases hs with rfl | rfl <;> decide
    · obtain ⟨hquote, hslash⟩ := not_or.1 hs
      have hspecial : isSpecial c = false := by simp [isSpecial, hquote, hslash, hc]
      rw [spelled, hspecial]
      unfold escapeChar
      split
      case h_8 => exact if_neg hc
      all_goals first | exact absurd rfl hquote | exact absurd rfl hslash | exact absurd (by decide) hc

theorem quote_eq_quoted (s : String) : quote s = quoted s := by
  unfold quote quoted
  rw [funext escapeChar_eq_spelled]

/-! ## Lines -/

/-- A line of text, and how deep it stands. -/
structure Line where
  depth : Nat
  text : String

/-- The text of each line with an indentation of two spaces a level. -/
def Line.indented (l : Line) : String := String.ofList (List.replicate (2 * l.depth) ' ') ++ l.text

def Line.deeper (l : Line) : Line := { l with depth := l.depth + 1 }

/-- The first line starts with `s`. -/
def startWith (s : String) : List Line → List Line
  | [] => []
  | l :: ls => { l with text := s ++ l.text } :: ls

/-- The last line ends with `s`. -/
def endWith (s : String) : List Line → List Line
  | [] => []
  | [l] => [{ l with text := l.text ++ s }]
  | l :: ls => l :: endWith s ls

/-- Parts one after the other, with a comma at the end of each but the last. -/
def separated : List (List Line) → List Line
  | [] => []
  | [part] => part
  | part :: parts => endWith "," part ++ separated parts

/-- Parts between two brackets, one level deeper. -/
def enclosed (opener closer : String) (parts : List (List Line)) : List Line :=
  if parts.isEmpty then [⟨0, opener ++ closer⟩]
  else ⟨0, opener⟩ :: ((separated parts).map Line.deeper ++ [⟨0, closer⟩])

mutual

def lines : Tree → List Line
  | .boolean b => [⟨0, if b then "true" else "false"⟩]
  | .text s => [⟨0, quoted s⟩]
  | .list items => enclosed "[" "]" (linesOfItems items)
  | .record fields => enclosed "\x7b" "\x7d" (linesOfFields fields)

def linesOfItems : List Tree → List (List Line)
  | [] => []
  | t :: ts => lines t :: linesOfItems ts

def linesOfFields : List (String × Tree) → List (List Line)
  | [] => []
  | (name, t) :: fs => startWith (quoted name ++ ": ") (lines t) :: linesOfFields fs

end

/-- What the tree is printed as. -/
def printed (t : Tree) : String := "\n".intercalate (t.lines.map Line.indented)

/-! ## The printer -/

/-- The text of the lines `depth` levels deeper, without the indentation of the first one, is `s`. -/
def PrintedAt (depth : Nat) (ls : List Line) (s : String) : Prop :=
  ∃ first rest, ls = ⟨0, first⟩ :: rest ∧
    s.toList = first.toList ++
      rest.flatMap fun l => (newline (depth + l.depth)).toList ++ l.text.toList

/-- The last line is the one that is longer. -/
theorem flatMap_endWith {f : Line → List Char} {t : String} {ls : List Line} (hne : ls ≠ [])
    (hf : ∀ l, f { l with text := l.text ++ t } = f l ++ t.toList) :
    (endWith t ls).flatMap f = ls.flatMap f ++ t.toList := by
  induction ls with
  | nil => exact absurd rfl hne
  | cons l ls ih =>
    cases ls with
    | nil => simp [endWith, hf]
    | cons l' ls =>
      show (l :: endWith t (l' :: ls)).flatMap f = _
      rw [List.flatMap_cons, ih (List.cons_ne_nil _ _), ← List.append_assoc, ← List.flatMap_cons]

namespace PrintedAt

variable {depth : Nat} {ls ms : List Line} {s t : String}

theorem line (s : String) : PrintedAt depth [⟨0, s⟩] s := ⟨s, [], rfl, (List.append_nil _).symm⟩

theorem startWith (h : PrintedAt depth ls s) (t : String) :
    PrintedAt depth (startWith t ls) (t ++ s) := by
  obtain ⟨first, rest, rfl, hs⟩ := h
  refine ⟨t ++ first, rest, rfl, ?_⟩
  rw [String.toList_append, String.toList_append, hs, List.append_assoc]

theorem endWith (h : PrintedAt depth ls s) (t : String) :
    PrintedAt depth (endWith t ls) (s ++ t) := by
  obtain ⟨first, rest, rfl, hs⟩ := h
  rcases rest with _ | ⟨l, rest⟩
  · refine ⟨first ++ t, [], rfl, ?_⟩
    simp [hs]
  · refine ⟨first, Tree.endWith t (l :: rest), rfl, ?_⟩
    rw [String.toList_append, hs, flatMap_endWith (List.cons_ne_nil _ _), List.append_assoc]
    intro l
    simp

theorem append (hs : PrintedAt depth ls s) (ht : PrintedAt depth ms t) :
    PrintedAt depth (ls ++ ms) (s ++ newline depth ++ t) := by
  obtain ⟨first, rest, rfl, hs⟩ := hs
  obtain ⟨first', rest', rfl, ht⟩ := ht
  refine ⟨first, rest ++ ⟨0, first'⟩ :: rest', rfl, ?_⟩
  simp [hs, ht]

/-- Lines one level deeper, between two others. -/
theorem between (h : PrintedAt (depth + 1) ls s) (opener closer : String) :
    PrintedAt depth (⟨0, opener⟩ :: (ls.map Line.deeper ++ [⟨0, closer⟩]))
      (opener ++ newline (depth + 1) ++ s ++ newline depth ++ closer) := by
  obtain ⟨first, rest, rfl, hs⟩ := h
  refine ⟨opener, _, rfl, ?_⟩
  have hdeeper : ∀ l : Line, depth + (l.depth + 1) = depth + 1 + l.depth := fun l => by omega
  simp [hs, Line.deeper, List.flatMap_map, hdeeper]

theorem separated {parts : List (List Line)} {texts : List String}
    (h : List.Forall₂ (PrintedAt depth) parts texts) (hne : parts ≠ []) :
    PrintedAt depth (separated parts) (("," ++ newline depth).intercalate texts) := by
  induction h with
  | nil => exact absurd rfl hne
  | @cons part text parts texts hpart hparts ih =>
    cases hparts with
    | nil => simpa [Tree.separated] using hpart
    | cons hnext hparts =>
      rw [String.intercalate_cons_cons]
      have happend := (hpart.endWith ",").append (ih (List.cons_ne_nil _ _))
      simpa [Tree.separated, String.append_assoc] using happend

theorem enclosed {parts : List (List Line)} {texts : List String}
    (h : List.Forall₂ (PrintedAt (depth + 1)) parts texts) (opener closer : String) :
    PrintedAt depth (enclosed opener closer parts) (layOut depth opener closer texts) := by
  cases h with
  | nil => exact line _
  | cons hpart hparts => exact (separated (.cons hpart hparts) (List.cons_ne_nil _ _)).between ..

end PrintedAt

theorem printedAt_lines (t : Tree) (depth : Nat) : PrintedAt depth t.lines (t.pretty depth) := by
  induction t using Tree.induction generalizing depth with
  | boolean b => exact .line _
  | text s =>
    rw [lines, pretty, quote_eq_quoted]
    exact .line _
  | list items ih =>
    have hitems : List.Forall₂ (PrintedAt (depth + 1)) (linesOfItems items)
        (prettyItems (depth + 1) items) := by
      induction items with
      | nil => exact .nil
      | cons t items ih' =>
        obtain ⟨ht, hi⟩ := List.forall_mem_cons.1 ih
        exact .cons (ht _) (ih' hi)
    exact .enclosed hitems _ _
  | record fields ih =>
    have hfields : List.Forall₂ (PrintedAt (depth + 1)) (linesOfFields fields)
        (prettyFields (depth + 1) fields) := by
      induction fields with
      | nil => exact .nil
      | cons f fields ih' =>
        obtain ⟨hf, hfs⟩ := List.forall_mem_cons.1 ih
        refine .cons ?_ (ih' hfs)
        rw [← quote_eq_quoted]
        exact (hf _).startWith _
    exact .enclosed hfields _ _

/-- Lines that each start with a line feed are put together by line feeds. -/
theorem toList_intercalate_newline (s : String) (ls : List Line) :
    ("\n".intercalate (s :: ls.map Line.indented)).toList =
      s.toList ++ ls.flatMap fun l => (newline l.depth).toList ++ l.text.toList := by
  induction ls generalizing s with
  | nil => simp
  | cons l ls ih =>
    rw [List.map_cons, String.intercalate_cons_cons, String.toList_append, ih]
    simp [Line.indented, newline]

/-- The printer prints the lines of a tree. -/
theorem pretty_eq_printed (t : Tree) : t.pretty 0 = t.printed := by
  obtain ⟨first, rest, hlines, htext⟩ := printedAt_lines t 0
  have hfirst : Line.indented ⟨0, first⟩ = first := by simp [Line.indented]
  rw [← String.toList_inj, htext, printed, hlines, List.map_cons, hfirst, toList_intercalate_newline]
  simp

example : (Tree.record [("a", .list []), ("b", .list [.boolean true, .text "\x01\""])]).lines.map
    Line.indented =
      ["\x7b",
        "  \"a\": [],",
        "  \"b\": [",
        "    true,",
        "    \"\\u0001\\\"\"",
        "  ]",
        "\x7d"] := by
  decide +kernel

end Tree

end SchemaInference
