/-
Reading a document. A value is read off the front of a text and leaves a shorter text behind
(`Read`); containers pass on how many more levels may open inside them, so siblings do not add up.
`parse` reads one value with blanks around it and refuses anything after it.
-/
import SchemaInference.Document.Scan

namespace SchemaInference.Document

/-- An item read off the front of `s`, and the text left behind it. -/
structure Read (α : Type) (s : List Char) where
  item : α
  rest : List Char
  shorter : rest.length < s.length

abbrev Reader (α : Type) : Type := (s : List Char) → Except Stop (Read α s)

namespace Read

/-- The same item, read off a text that only continues at `s` after more characters. -/
def extend {α : Type} {s t : List Char} (r : Read α s) (h : s.length ≤ t.length) : Read α t :=
  ⟨r.item, r.rest, Nat.lt_of_lt_of_le r.shorter h⟩

def map {α β : Type} {s : List Char} (f : α → β) (r : Read α s) : Read β s :=
  ⟨f r.item, r.rest, r.shorter⟩

end Read

/-! ## Containers -/

/-- One item or more, a comma between each two, up to the closing character. -/
def readItems {α : Type} (closer : Char) (read : Reader α) (s : List Char) :
    Except Stop (Read (List α) s) :=
  match read s with
  | .error stop => .error stop
  | .ok first =>
    match h : skipBlanks first.rest with
    | [] => .error ⟨.unexpectedEnd, []⟩
    | c :: rest =>
      have shorter : rest.length < s.length :=
        Nat.lt_trans (length_lt_of_skipBlanks h) first.shorter
      if c = ',' then
        match readItems closer read rest with
        | .error stop => .error stop
        | .ok more => .ok ⟨first.item :: more.item, more.rest, Nat.lt_trans more.shorter shorter⟩
      else if c = closer then .ok ⟨[first.item], rest, shorter⟩
      else .error ⟨.missingSeparator closer, c :: rest⟩
termination_by s.length

/-- What follows the opening bracket: nothing but the closing character, or items. -/
def readContents {α : Type} (closer : Char) (read : Reader α) (s : List Char) :
    Except Stop (Read (List α) s) :=
  match h : skipBlanks s with
  | [] => readItems closer read s
  | c :: rest =>
    if c = closer then .ok ⟨[], rest, length_lt_of_skipBlanks h⟩
    else readItems closer read s

/-- A name, a colon and a value. -/
def readMember (read : Reader Value) : Reader (String × Value) := fun s =>
  match h : skipBlanks s with
  | '"' :: t =>
    match ht : scanString t with
    | none => .error ⟨.unclosedString, '"' :: t⟩
    | some (name, u) =>
      match hu : skipBlanks u with
      | ':' :: v =>
        match read v with
        | .error stop => .error stop
        | .ok value =>
          have shorter : v.length ≤ s.length :=
            Nat.le_of_lt (Nat.lt_trans (length_lt_of_skipBlanks hu)
              (Nat.lt_trans (length_lt_of_scanString ht) (length_lt_of_skipBlanks h)))
          .ok ((value.map (String.ofList name, ·)).extend shorter)
      | u => .error (.wanting .missingColon u)
  | t => .error (.wanting .expectedMemberName t)

/-! ## Values -/

theorem Word.length_drop_lt (w : Word) {s : List Char} (h : w.chars <+: s) :
    (s.drop w.chars.length).length < s.length := by
  have h₁ := h.length_le
  have h₂ : 0 < w.chars.length := by cases w <;> decide
  rw [List.length_drop]
  omega

def readWord (w : Word) (s : List Char) : Except Stop (Read Value s) :=
  if h : w.chars <+: s then .ok ⟨w.value, s.drop w.chars.length, w.length_drop_lt h⟩
  else .error ⟨.expectedWord w, s⟩

def readString (s : List Char) : Except Stop (Read Value s) :=
  match s with
  | '"' :: t =>
    match h : scanString t with
    | none => .error ⟨.unclosedString, '"' :: t⟩
    | some (raw, rest) =>
      .ok ⟨.string (String.ofList raw), rest, Nat.lt_succ_of_lt (length_lt_of_scanString h)⟩
  | s => .error (.unexpected s)

def readNumber (s : List Char) : Except Stop (Read Value s) :=
  match h : scanNumber s with
  | .error stop => .error stop
  | .ok n => .ok ⟨n.value, n.rest, length_lt_of_scanNumber h⟩

/-- A value after blanks, in which `room` more levels may open. -/
def readValue (room : Nat) : Reader Value := fun s =>
  match h : skipBlanks s with
  | [] => .error (.unexpected [])
  | c :: rest =>
    have whole : (c :: rest).length ≤ s.length := h ▸ length_skipBlanks_le s
    have inner : rest.length ≤ s.length := Nat.le_of_succ_le whole
    if c = '{' then
      match room with
      | 0 => .error ⟨.tooDeep, c :: rest⟩
      | room + 1 =>
        (readContents '}' (readMember (readValue room)) rest).map fun r =>
          (r.map .object).extend inner
    else if c = '[' then
      match room with
      | 0 => .error ⟨.tooDeep, c :: rest⟩
      | room + 1 =>
        (readContents ']' (readValue room) rest).map fun r => (r.map .array).extend inner
    else if c = '"' then (readString (c :: rest)).map (·.extend whole)
    else if c = 't' then (readWord .true (c :: rest)).map (·.extend whole)
    else if c = 'f' then (readWord .false (c :: rest)).map (·.extend whole)
    else if c = 'n' then (readWord .null (c :: rest)).map (·.extend whole)
    else if c = '-' || c.isDigit then (readNumber (c :: rest)).map (·.extend whole)
    else .error (.unexpected (c :: rest))

/-! ## Documents -/

/-- One value and nothing but blanks around it. -/
def readDocument (s : List Char) : Except Stop Value :=
  match readValue maxDepth s with
  | .error stop => .error stop
  | .ok r =>
    match skipBlanks r.rest with
    | [] => .ok r.item
    | rest => .error ⟨.trailingCharacters, rest⟩

def parse (text : String) : Except Fault Value :=
  (readDocument text.toList).mapError (·.within text.toList)

end SchemaInference.Document
