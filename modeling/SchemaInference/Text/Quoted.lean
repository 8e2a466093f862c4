/-
Quoted text in messages: a character between single quotes, with a backslash escape for each
character that would not show as itself; a plain word between double quotes.
-/
import SchemaInference.Text.Unprintable

namespace SchemaInference.Text

/-- The code point of an unprintable character is written in lower-case hex, without padding. -/
def escapeChar (c : Char) : String :=
  match c with
  | '\x00' => "\\0"
  | '\t' => "\\t"
  | '\r' => "\\r"
  | '\n' => "\\n"
  | '\'' => "\\'"
  | '\\' => "\\\\"
  | c =>
    if isUnprintable c then "\\u\x7b" ++ String.ofList (Nat.toDigits 16 c.toNat) ++ "\x7d"
    else String.singleton c

def quoteChar (c : Char) : String := "'" ++ escapeChar c ++ "'"

/-- `word` holds no character that needs an escape. -/
def quoteWord (word : String) : String := "\"" ++ word ++ "\""

end SchemaInference.Text
