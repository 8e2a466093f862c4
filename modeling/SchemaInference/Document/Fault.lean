/-
What is wrong with a text that is no document, and where. While a text is read, the place is the
part not yet read (`Stop`); the fault handed out counts the bytes before it.
-/
import SchemaInference.Document.Value
import SchemaInference.Text.Quoted

namespace SchemaInference.Document

/-- Containers may be nested this deep. -/
def maxDepth : Nat := 128

/-- A value that is written as a fixed word. -/
inductive Word where
  | true
  | false
  | null
deriving DecidableEq, Repr, Inhabited

namespace Word

def text : Word → String
  | .true => "true"
  | .false => "false"
  | .null => "null"

def chars : Word → List Char
  | .true => ['t', 'r', 'u', 'e']
  | .false => ['f', 'a', 'l', 's', 'e']
  | .null => ['n', 'u', 'l', 'l']

def value : Word → Value
  | .true => .boolean Bool.true
  | .false => .boolean Bool.false
  | .null => .null

theorem toList_text (w : Word) : w.text.toList = w.chars := by
  cases w <;> rfl

end Word

inductive Cause where
  | unexpectedEnd
  | unexpectedCharacter (c : Char)
  | expectedWord (w : Word)
  | expectedMemberName
  | expectedDigits
  | unclosedString
  | missingSeparator (closer : Char)
  | missingColon
  | trailingCharacters
  | tooDeep
deriving DecidableEq, Repr, Inhabited

def Cause.message : Cause → String
  | .unexpectedEnd => "unexpected end of input"
  | .unexpectedCharacter c => "unexpected character " ++ Text.quoteChar c
  | .expectedWord w => "expected " ++ Text.quoteWord w.text
  | .expectedMemberName => "expected " ++ Text.quoteWord "member name"
  | .expectedDigits => "expected digits"
  | .unclosedString => "unclosed string"
  | .missingSeparator closer => "expected ',' or '" ++ String.singleton closer ++ "'"
  | .missingColon => "expected ':' after member name"
  | .trailingCharacters => "trailing characters after top-level value"
  | .tooDeep => "nesting deeper than " ++ toString maxDepth ++ " levels"

/-- The length in UTF-8. -/
def byteLength : List Char → Nat
  | [] => 0
  | c :: cs => c.utf8Size + byteLength cs

/-- Why reading stops, and the text that stands unread where it does. -/
structure Stop where
  cause : Cause
  rest : List Char
deriving DecidableEq, Repr

/-- Why a text is no document, and how many bytes of it stand before the place. -/
structure Fault where
  cause : Cause
  offset : Nat
deriving DecidableEq, Repr, Inhabited

def Fault.message (f : Fault) : String := f.cause.message ++ " at byte " ++ toString f.offset

/-- The fault of a stop within `text`, of which `s.rest` is the end. -/
def Stop.within (s : Stop) (text : List Char) : Fault :=
  ⟨s.cause, byteLength text - byteLength s.rest⟩

/-- A stop at whatever comes next: nothing, or a character that does not belong there. -/
def Stop.unexpected : List Char → Stop
  | [] => ⟨.unexpectedEnd, []⟩
  | c :: cs => ⟨.unexpectedCharacter c, c :: cs⟩

/-- A stop for want of something: at the end of the text, what is wrong is the end itself. -/
def Stop.wanting (cause : Cause) : List Char → Stop
  | [] => ⟨.unexpectedEnd, []⟩
  | c :: cs => ⟨cause, c :: cs⟩

end SchemaInference.Document
