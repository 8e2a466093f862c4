/-
Nested data with named fields in order, and its text: compact, without any blank, or laid out over
lines with an indentation of two spaces a level, where a list or record without content stays on one
line.
-/
namespace SchemaInference

inductive Tree where
  | boolean (b : Bool)
  | text (s : String)
  | list (items : List Tree)
  | record (fields : List (String × Tree))
deriving Repr, Inhabited

namespace Tree

/-! ## Strings -/

/-- The two lower-case hex digits of a number below 256. -/
def hexByte (n : Nat) : List Char := [Nat.digitChar (n / 16), Nat.digitChar (n % 16)]

/-- Quotes, backslashes and control characters have an escape, the shortest there is. -/
def escapeChar (c : Char) : List Char :=
  match c with
  | '"' => ['\\', '"']
  | '\\' => ['\\', '\\']
  | '\n' => ['\\', 'n']
  | '\r' => ['\\', 'r']
  | '\t' => ['\\', 't']
  | '\x08' => ['\\', 'b']
  | '\x0c' => ['\\', 'f']
  | c => if c.toNat < 0x20 then ['\\', 'u', '0', '0'] ++ hexByte c.toNat else [c]

def quote (s : String) : String :=
  "\"" ++ String.ofList (s.toList.flatMap escapeChar) ++ "\""

def bool (b : Bool) : String := if b then "true" else "false"

/-! ## Compact text -/

mutual

def compact : Tree → String
  | .boolean b => bool b
  | .text s => quote s
  | .list items => "[" ++ ",".intercalate (compactItems items) ++ "]"
  | .record fields => "\x7b" ++ ",".intercalate (compactFields fields) ++ "\x7d"

def compactItems : List Tree → List String
  | [] => []
  | t :: ts => compact t :: compactItems ts

def compactFields : List (String × Tree) → List String
  | [] => []
  | (name, t) :: fs => (quote name ++ ":" ++ compact t) :: compactFields fs

end

/-! ## Text over lines -/

/-- The start of a line at that depth. -/
def newline (depth : Nat) : String := String.ofList ('\n' :: List.replicate (2 * depth) ' ')

/-- The parts between two brackets, each on a line of its own at `depth + 1`. -/
def layOut (depth : Nat) (opener closer : String) (parts : List String) : String :=
  if parts.isEmpty then opener ++ closer
  else
    opener ++ newline (depth + 1) ++ ("," ++ newline (depth + 1)).intercalate parts ++
      newline depth ++ closer

mutual

def pretty (depth : Nat) : Tree → String
  | .boolean b => bool b
  | .text s => quote s
  | .list items => layOut depth "[" "]" (prettyItems (depth + 1) items)
  | .record fields => layOut depth "\x7b" "\x7d" (prettyFields (depth + 1) fields)

def prettyItems (depth : Nat) : List Tree → List String
  | [] => []
  | t :: ts => pretty depth t :: prettyItems depth ts

def prettyFields (depth : Nat) : List (String × Tree) → List String
  | [] => []
  | (name, t) :: fs => (quote name ++ ": " ++ pretty depth t) :: prettyFields depth fs

end

end Tree

end SchemaInference
