/-
How documents are written. `Spells s v` says that the text `s` is the value `v` written out: words,
numbers, strings and containers, with blanks before, between and after them at will. Number texts,
raw strings and raw names stand in the value as they stand in the text. The grammar does not bound
how deep containers nest; `Value.depth` measures it.
-/
import SchemaInference.Document.Value
import SchemaInference.Document.Scan

namespace SchemaInference.Document

/-! ## Tokens -/

/-- A run of blanks: spaces, tabs, carriage returns and line feeds. -/
def Blanks (s : List Char) : Prop := ∀ c ∈ s, c = ' ' ∨ c = '\t' ∨ c = '\r' ∨ c = '\n'

/-- One digit or more. -/
def Digits (s : List Char) : Prop := s ≠ [] ∧ ∀ c ∈ s, c.isDigit = true

/-- Digits, with a minus sign in front or not. -/
def IntegerText (s : List Char) : Prop :=
  ∃ minus digits, s = minus ++ digits ∧ (minus = [] ∨ minus = ['-']) ∧ Digits digits

/-- A point and digits. -/
def FractionText (s : List Char) : Prop := ∃ digits, s = '.' :: digits ∧ Digits digits

/-- An exponent mark, perhaps a sign, and digits. -/
def ExponentText (s : List Char) : Prop :=
  ∃ mark sign digits, s = mark :: (sign ++ digits) ∧ (mark = 'e' ∨ mark = 'E') ∧
    (sign = [] ∨ sign = ['+'] ∨ sign = ['-']) ∧ Digits digits

/-- An integer with a fraction, an exponent, or both after it. -/
def RealText (s : List Char) : Prop :=
  ∃ whole fraction exponent, s = whole ++ (fraction ++ exponent) ∧ IntegerText whole ∧
    (fraction = [] ∨ FractionText fraction) ∧ (exponent = [] ∨ ExponentText exponent) ∧
    fraction ++ exponent ≠ []

/-- How many backslashes there are at the end. -/
def backslashes (s : List Char) : Nat := (s.reverse.takeWhile (· = '\\')).length

/-- What may stand between quotes: an odd run of backslashes stands before every quote, and none at
the end. -/
def RawText (s : List Char) : Prop :=
  (∀ before after, s = before ++ '"' :: after → backslashes before % 2 = 1) ∧
    backslashes s % 2 = 0

/-! ## Values -/

/-- The texts with a comma between each two. -/
def commas : List (List Char) → List Char
  | [] => []
  | [s] => s
  | s :: t :: texts => s ++ ',' :: commas (t :: texts)

/-- The parts of a member: blanks, the raw name, blanks, and the text of the value. -/
structure MemberText where
  before : List Char
  name : List Char
  after : List Char
  text : List Char
  value : Value

namespace MemberText

def chars (m : MemberText) : List Char :=
  m.before ++ '"' :: (m.name ++ '"' :: (m.after ++ ':' :: m.text))

def member (m : MemberText) : String × Value := (String.ofList m.name, m.value)

end MemberText

inductive Spells : List Char → Value → Prop
  | null : Spells ['n', 'u', 'l', 'l'] .null
  | true : Spells ['t', 'r', 'u', 'e'] (.boolean true)
  | false : Spells ['f', 'a', 'l', 's', 'e'] (.boolean false)
  | integer {s : List Char} (h : IntegerText s) : Spells s (.integer (String.ofList s))
  | real {s : List Char} (h : RealText s) : Spells s (.real (String.ofList s))
  | string {raw : List Char} (h : RawText raw) :
      Spells ('"' :: (raw ++ ['"'])) (.string (String.ofList raw))
  | emptyArray {s : List Char} (h : Blanks s) : Spells ('[' :: (s ++ [']'])) (.array [])
  | array {items : List (List Char × Value)} (h : items ≠ []) (each : ∀ i ∈ items, Spells i.1 i.2) :
      Spells ('[' :: (commas (items.map (·.1)) ++ [']'])) (.array (items.map (·.2)))
  | emptyObject {s : List Char} (h : Blanks s) : Spells ('{' :: (s ++ ['}'])) (.object [])
  | object {members : List MemberText} (h : members ≠ [])
      (blanks : ∀ m ∈ members, Blanks m.before ∧ Blanks m.after)
      (names : ∀ m ∈ members, RawText m.name) (each : ∀ m ∈ members, Spells m.text m.value) :
      Spells ('{' :: (commas (members.map MemberText.chars) ++ ['}']))
        (.object (members.map MemberText.member))
  | padded {before s after : List Char} {v : Value} (hb : Blanks before) (ha : Blanks after)
      (h : Spells s v) : Spells (before ++ (s ++ after)) v

namespace Value

mutual

/-- How deep arrays and objects nest. -/
def depth : Value → Nat
  | .array items => 1 + depthItems items
  | .object members => 1 + depthMembers members
  | _ => 0

def depthItems : List Value → Nat
  | [] => 0
  | v :: items => max (depth v) (depthItems items)

def depthMembers : List (String × Value) → Nat
  | [] => 0
  | (_, v) :: members => max (depth v) (depthMembers members)

end

theorem depthItems_le {items : List Value} {n : Nat} :
    depthItems items ≤ n ↔ ∀ v ∈ items, v.depth ≤ n := by
  induction items with
  | nil => simp [depthItems]
  | cons v items ih =>
    rw [depthItems, Nat.max_le, ih, List.forall_mem_cons]

theorem depthMembers_le {members : List (String × Value)} {n : Nat} :
    depthMembers members ≤ n ↔ ∀ m ∈ members, m.2.depth ≤ n := by
  induction members with
  | nil => simp [depthMembers]
  | cons m members ih =>
    rw [depthMembers, Nat.max_le, ih, List.forall_mem_cons]

/-- An array opens one level, and its items nest in it. -/
theorem depth_array_le {items : List Value} {n : Nat} :
    (Value.array items).depth ≤ n ↔ ∃ m, n = m + 1 ∧ ∀ v ∈ items, v.depth ≤ m := by
  rw [depth]
  constructor
  · intro h
    exact ⟨n - 1, by omega, depthItems_le.1 (by omega)⟩
  · rintro ⟨m, rfl, h⟩
    have := depthItems_le.2 h
    omega

theorem depth_object_le {members : List (String × Value)} {n : Nat} :
    (Value.object members).depth ≤ n ↔ ∃ m, n = m + 1 ∧ ∀ i ∈ members, i.2.depth ≤ m := by
  rw [depth]
  constructor
  · intro h
    exact ⟨n - 1, by omega, depthMembers_le.1 (by omega)⟩
  · rintro ⟨m, rfl, h⟩
    have := depthMembers_le.2 h
    omega

end Value

end SchemaInference.Document
