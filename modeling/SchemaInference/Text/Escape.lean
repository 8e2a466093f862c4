/-
The characters that a string of a document stands for. Every escape has to be one of the known
ones, a code unit of a surrogate pair has to have its partner, and a control character has to be
escaped; a string that breaks one of these stands for nothing.
-/
namespace SchemaInference.Text

def hexValue? (c : Char) : Option Nat :=
  if c.isDigit then some (c.toNat - '0'.toNat)
  else if 'a' ≤ c && c ≤ 'f' then some (c.toNat - 'a'.toNat + 10)
  else if 'A' ≤ c && c ≤ 'F' then some (c.toNat - 'A'.toNat + 10)
  else none

/-- The code unit that four hex digits spell. -/
def codeUnit? (a b c d : Char) : Option Nat := do
  return (((← hexValue? a) * 16 + (← hexValue? b)) * 16 + (← hexValue? c)) * 16 + (← hexValue? d)

def isHighSurrogate (n : Nat) : Bool := 0xd800 ≤ n && n < 0xdc00

def isLowSurrogate (n : Nat) : Bool := 0xdc00 ≤ n && n < 0xe000

/-- The character of a surrogate pair. -/
def pairChar (high low : Nat) : Char :=
  Char.ofNat (0x10000 + (high - 0xd800) * 0x400 + (low - 0xdc00))

/-- What a backslash and `c` stand for. -/
def shortEscape? : Char → Option Char
  | '"' => some '"'
  | '\\' => some '\\'
  | '/' => some '/'
  | 'b' => some '\x08'
  | 'f' => some '\x0c'
  | 'n' => some '\n'
  | 'r' => some '\r'
  | 't' => some '\t'
  | _ => none

def unescape? : List Char → Option (List Char)
  | [] => some []
  | '\\' :: 'u' :: a :: b :: c :: d :: cs => do
    let unit ← codeUnit? a b c d
    if isHighSurrogate unit then
      match cs with
      | '\\' :: 'u' :: e :: f :: g :: h :: cs => do
        let low ← codeUnit? e f g h
        guard (isLowSurrogate low)
        return pairChar unit low :: (← unescape? cs)
      | _ => none
    else do
      guard !(isLowSurrogate unit)
      return Char.ofNat unit :: (← unescape? cs)
  | '\\' :: c :: cs => do return (← shortEscape? c) :: (← unescape? cs)
  | c :: cs => do
    guard (c != '\\' && 0x20 ≤ c.toNat)
    return c :: (← unescape? cs)

end SchemaInference.Text
