/-
The parts of a text that hold no other part: blanks, strings and numbers. Each scan cuts the text
into what it takes and what it leaves, and the two together are the text again (`scanString_eq`,
`scanNumber_eq`).
-/
import SchemaInference.Document.Fault

namespace SchemaInference.Document

/-! ## Blanks -/

def isBlank (c : Char) : Bool := c == ' ' || c == '\t' || c == '\n' || c == '\r'

def skipBlanks (s : List Char) : List Char := s.dropWhile isBlank

theorem length_skipBlanks_le (s : List Char) : (skipBlanks s).length ≤ s.length :=
  (List.dropWhile_suffix _).length_le

theorem length_lt_of_skipBlanks {s rest : List Char} {c : Char} (h : skipBlanks s = c :: rest) :
    rest.length < s.length := by
  have := length_skipBlanks_le s
  rw [h] at this
  exact this

/-! ## Strings -/

/-- The raw text up to the closing quote, and what follows the quote. A backslash takes the next
character with it, so an escaped quote does not close. -/
def scanString : List Char → Option (List Char × List Char)
  | [] => none
  | '"' :: s => some ([], s)
  | '\\' :: c :: s => (scanString s).map fun (raw, rest) => ('\\' :: c :: raw, rest)
  | c :: s => (scanString s).map fun (raw, rest) => (c :: raw, rest)

theorem scanString_eq {s raw rest : List Char} (h : scanString s = some (raw, rest)) :
    s = raw ++ '"' :: rest := by
  fun_induction scanString s generalizing raw rest with
  | case1 => simp at h
  | case2 s => simp at h; simp [h]
  | case3 c s ih =>
    obtain ⟨⟨raw', rest'⟩, h', e⟩ := Option.map_eq_some_iff.1 h
    simp only [Prod.mk.injEq] at e
    rw [ih h', ← e.1, ← e.2]; rfl
  | case4 c s _ _ ih =>
    obtain ⟨⟨raw', rest'⟩, h', e⟩ := Option.map_eq_some_iff.1 h
    simp only [Prod.mk.injEq] at e
    rw [ih h', ← e.1, ← e.2]; rfl

/-! ## Numbers -/

/-- The digits that `s` starts with, at least one. -/
def scanDigits (s : List Char) : Except Stop (List Char × List Char) :=
  match s.takeWhile Char.isDigit with
  | [] => .error ⟨.expectedDigits, s⟩
  | d :: ds => .ok (d :: ds, s.dropWhile Char.isDigit)

/-- A point and the digits after it, or nothing. -/
def scanFraction : List Char → Except Stop (List Char × List Char)
  | '.' :: s => (scanDigits s).map fun (ds, rest) => ('.' :: ds, rest)
  | s => .ok ([], s)

def scanSign : List Char → List Char × List Char
  | '+' :: s => (['+'], s)
  | '-' :: s => (['-'], s)
  | s => ([], s)

def isExponentMark (c : Char) : Bool := c == 'e' || c == 'E'

/-- An exponent mark, a sign if there is one, and the digits after it, or nothing. -/
def scanExponent : List Char → Except Stop (List Char × List Char)
  | [] => .ok ([], [])
  | c :: s =>
    if isExponentMark c then
      (scanDigits (scanSign s).2).map fun (ds, rest) => (c :: (scanSign s).1 ++ ds, rest)
    else .ok ([], c :: s)

def scanMinus : List Char → List Char × List Char
  | '-' :: s => (['-'], s)
  | s => ([], s)

/-- The text of a number: the part every number has, the fraction and exponent that make it real,
and what follows. -/
structure Numeral where
  whole : List Char
  tail : List Char
  rest : List Char

def Numeral.text (n : Numeral) : List Char := n.whole ++ n.tail

def Numeral.value (n : Numeral) : Value :=
  if n.tail.isEmpty then .integer (String.ofList n.text) else .real (String.ofList n.text)

def scanNumber (s : List Char) : Except Stop Numeral := do
  let (digits, s₁) ← scanDigits (scanMinus s).2
  let (fraction, s₂) ← scanFraction s₁
  let (exponent, s₃) ← scanExponent s₂
  return ⟨(scanMinus s).1 ++ digits, fraction ++ exponent, s₃⟩

theorem scanDigits_eq {s ds rest : List Char} (h : scanDigits s = .ok (ds, rest)) :
    s = ds ++ rest ∧ ds ≠ [] := by
  unfold scanDigits at h
  split at h
  · cases h
  · rename_i d ds' hd
    cases h
    exact ⟨by rw [← hd, List.takeWhile_append_dropWhile], by simp⟩

theorem scanFraction_eq {s part rest : List Char} (h : scanFraction s = .ok (part, rest)) :
    s = part ++ rest := by
  unfold scanFraction at h
  split at h
  · rename_i s'
    cases hd : scanDigits s' with
    | error e => rw [hd] at h; cases h
    | ok p => rw [hd] at h; cases h; simp [(scanDigits_eq hd).1]
  · cases h; rfl

theorem scanSign_eq (s : List Char) : (scanSign s).1 ++ (scanSign s).2 = s := by
  unfold scanSign; split <;> rfl

theorem scanMinus_eq (s : List Char) : (scanMinus s).1 ++ (scanMinus s).2 = s := by
  unfold scanMinus; split <;> rfl

theorem scanExponent_eq {s part rest : List Char} (h : scanExponent s = .ok (part, rest)) :
    s = part ++ rest := by
  unfold scanExponent at h
  split at h
  · cases h; rfl
  · rename_i c s'
    split at h
    · cases hd : scanDigits (scanSign s').2 with
      | error e => rw [hd] at h; cases h
      | ok p =>
        rw [hd] at h; cases h
        rw [List.append_assoc, ← (scanDigits_eq hd).1, List.cons_append, scanSign_eq]
    · cases h; rfl

theorem scanNumber_eq {s : List Char} {n : Numeral} (h : scanNumber s = .ok n) :
    s = n.text ++ n.rest ∧ n.whole ≠ [] := by
  unfold scanNumber at h
  simp only [bind, Except.bind] at h
  split at h
  · cases h
  rename_i p hd
  split at h
  · cases h
  rename_i q hf
  split at h
  · cases h
  rename_i r he
  cases h
  obtain ⟨h₁, h₂⟩ := scanDigits_eq hd
  refine ⟨?_, by simp [h₂]⟩
  have h₃ := scanFraction_eq hf
  have h₄ := scanExponent_eq he
  calc s = (scanMinus s).1 ++ (scanMinus s).2 := (scanMinus_eq s).symm
    _ = _ := by rw [h₁, h₃, h₄]; simp [Numeral.text]

/-! ## What a scan leaves -/

theorem length_lt_of_scanString {s raw rest : List Char} (h : scanString s = some (raw, rest)) :
    rest.length < s.length := by
  rw [scanString_eq h]; simp; omega

theorem length_lt_of_scanNumber {s : List Char} {n : Numeral} (h : scanNumber s = .ok n) :
    n.rest.length < s.length := by
  obtain ⟨h₁, h₂⟩ := scanNumber_eq h
  have := List.length_pos_iff.2 h₂
  rw [h₁]; simp [Numeral.text]; omega

end SchemaInference.Document
