/-
Identifiers, and how any text becomes one. A unicode escape in the text (`\u` and four hex digits,
or `\U` and eight) is first spelled as `0x` and its digits; then the reserved beginning `_json` goes
in front of a name that is empty, that starts with neither a letter nor an underscore, or that is a
reserved word; and every character that may not stand in an identifier becomes `0x` and its code
point in hexadecimal. The outcome is valid in its dialect, and a valid name is left as it is.
-/
import SchemaInference.Identifier.Dialect

namespace SchemaInference

/-- A name of generated code. -/
structure Identifier where
  text : String
deriving DecidableEq, Repr, Inhabited

namespace Identifier

instance : ToString Identifier := ⟨Identifier.text⟩

/-! ## Characters -/

/-- A letter is an ASCII letter. -/
def isStart (c : Char) : Bool := c.isAlpha || c == '_'

def isWord (c : Char) : Bool := c.isAlphanum || c == '_'

def isHexDigit (c : Char) : Bool :=
  c.isDigit || ('a' ≤ c && c ≤ 'f') || ('A' ≤ c && c ≤ 'F')

/-- `cs` starts with `n` hex digits. -/
def startsHex : Nat → List Char → Bool
  | 0, _ => true
  | _ + 1, [] => false
  | n + 1, c :: cs => isHexDigit c && startsHex n cs

/-- After a backslash, `mark` and what follows it complete a unicode escape. -/
def opensEscape (mark : Char) (cs : List Char) : Bool :=
  (mark == 'u' && startsHex 4 cs) || (mark == 'U' && startsHex 8 cs)

/-! ## Sanitizing -/

/-- Each unicode escape spelled as `0x` and its digits, all else unchanged. The digits are plain
characters, so the scan goes on with them. -/
def spellEscapes : List Char → List Char
  | '\\' :: mark :: cs =>
    if opensEscape mark cs then '0' :: 'x' :: spellEscapes cs else '\\' :: spellEscapes (mark :: cs)
  | c :: cs => c :: spellEscapes cs
  | [] => []

/-- The code point in lower-case hexadecimal, without padding. -/
def spellCodePoint (c : Char) : List Char := '0' :: 'x' :: Nat.toDigits 16 c.toNat

def spellChar (c : Char) : List Char := if isWord c then [c] else spellCodePoint c

/-- What goes in front of a name that could not stand as it is. -/
def reservedStart : List Char := ['_', 'j', 's', 'o', 'n']

def needsReservedStart (d : Dialect) : List Char → Bool
  | [] => true
  | c :: cs => !isStart c || d.isReserved (String.ofList (c :: cs))

def sanitizeChars (d : Dialect) (raw : List Char) : List Char :=
  let name := spellEscapes raw
  (if needsReservedStart d name then reservedStart else []) ++ name.flatMap spellChar

/-- The identifier of dialect `d` that stands for `raw`. -/
def sanitize (d : Dialect) (raw : String) : Identifier :=
  ⟨String.ofList (sanitizeChars d raw.toList)⟩

def isValidChars (d : Dialect) : List Char → Bool
  | [] => false
  | c :: cs => isStart c && (c :: cs).all isWord && !d.isReserved (String.ofList (c :: cs))

/-- Whether `name` may stand in dialect `d` as it is. -/
def isValid (d : Dialect) (name : String) : Bool := isValidChars d name.toList

end Identifier

end SchemaInference
