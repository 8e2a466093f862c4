/-
The reader on one cursor. `readValue` is handed the text that is left; here the whole text is there
all the time, and what changes is a place in its bytes and the number of containers that are open.
What is looked at are bytes, one at a time, and texts are cut out between two places. It is a breach
to go by bytes behind the end, to cut where no character starts, and to close what is not open.

Nothing here says that the loops end. They are run for `n` rounds, each of which is one turn of a
loop or one call of a reader within another, and what needs more of them is unfinished.
-/
import SchemaInference.Document.Reader

namespace SchemaInference.Document

/-- A place in the bytes of a text, and how many containers are open there. -/
structure Cursor where
  place : Nat
  depth : Nat
deriving DecidableEq, Repr

/-- What steps must not do. -/
inductive Breach where
  | outOfRange
  | withinCharacter
  | nothingOpen
deriving DecidableEq, Repr

/-- Why steps end without a result. -/
inductive Failure where
  | fault (f : Fault)
  | breach (b : Breach)
deriving DecidableEq, Repr

/-- Steps of a reader, which move the cursor. Without an end they are unfinished. -/
abbrev Steps (α : Type) : Type := StateT Cursor (ExceptT Failure Option) α

namespace Cursor

variable {α : Type} (text : String)

/-- The text in UTF-8. -/
def bytes : List UInt8 := text.toByteArray.data.toList

/-! ## Single steps -/

def unfinished : Steps α := fun _ => ExceptT.mk none

/-- The byte at the cursor, if the text does not end there. -/
def peek : Steps (Option UInt8) := do return (bytes text)[(← get).place]?

def advance (k : Nat) : Steps Unit := modify fun c => { c with place := c.place + k }

/-- A fault at the cursor. -/
def stop (cause : Cause) : Steps α := do throw (.fault ⟨cause, (← get).place⟩)

/-- A fault at whatever comes next: nothing, or a character that does not belong there. -/
def unexpected : Steps α := do
  match text.pos? ⟨(← get).place⟩ with
  | none => stop .unexpectedEnd
  | some p =>
    if h : p = text.endPos then stop .unexpectedEnd else stop (.unexpectedCharacter (p.get h))

/-- The byte `c` comes next; at the end of the text, what is wrong is the end itself. -/
def demand (c : Char) (cause : Cause) : Steps Unit := do
  match ← peek text with
  | none => stop .unexpectedEnd
  | some b => if b = c.toUInt8 then return () else stop cause

/-- Passes the next byte if `p` holds for it, and tells whether it does. -/
def pass (p : UInt8 → Bool) : Steps Bool := do
  match ← peek text with
  | none => return false
  | some b =>
    if p b then
      advance 1
      return true
    else return false

/-- Passes bytes as long as `p` holds for them. -/
def passAll (p : UInt8 → Bool) : Nat → Steps Unit
  | 0 => unfinished
  | n + 1 => do
    if ← pass text p then passAll p n

/-- The bytes from a place on. -/
def bytesFrom (place : Nat) : Steps (List UInt8) :=
  if place ≤ (bytes text).length then return (bytes text).drop place
  else throw (.breach .outOfRange)

/-- The text between two places. -/
def cut (first last : Nat) : Steps String :=
  if first ≤ last ∧ last ≤ (bytes text).length then
    match text.pos? ⟨first⟩, text.pos? ⟨last⟩ with
    | some p, some q => return text.extract p q
    | _, _ => throw (.breach .withinCharacter)
  else throw (.breach .outOfRange)

/-! ## Tokens -/

def isBlankByte (b : UInt8) : Bool :=
  b == ' '.toUInt8 || b == '\t'.toUInt8 || b == '\n'.toUInt8 || b == '\r'.toUInt8

def isDigitByte (b : UInt8) : Bool := '0'.toUInt8 ≤ b && b ≤ '9'.toUInt8

def skipBlanks (n : Nat) : Steps Unit := passAll text isBlankByte n

def readWord (w : Word) : Steps Value := do
  let rest ← bytesFrom text (← get).place
  if bytes w.text <+: rest then
    advance (bytes w.text).length
    return w.value
  else stop (.expectedWord w)

/-- How many bytes stand before the closing quote, where an odd run of backslashes goes before all
of them if `escaped`. -/
def closingQuote? : Bool → List UInt8 → Option Nat
  | _, [] => none
  | escaped, b :: bs =>
    if b = '"'.toUInt8 ∧ escaped = false then some 0
    else (closingQuote? (b == '\\'.toUInt8 && !escaped) bs).map (· + 1)

/-- The raw text between the quotes, from the opening one on. -/
def readString : Steps String := do
  let first := (← get).place + 1
  match closingQuote? false (← bytesFrom text first) with
  | none => stop .unclosedString
  | some k =>
    advance (k + 2)
    cut text first (first + k)

def readDigits (n : Nat) : Steps Unit := do
  let first := (← get).place
  passAll text isDigitByte n
  if (← get).place = first then stop .expectedDigits

/-- A point and the digits after it, or nothing. -/
def readFraction (n : Nat) : Steps Bool := do
  if ← pass text (· == '.'.toUInt8) then
    readDigits text n
    return true
  else return false

/-- An exponent mark, a sign if there is one, and the digits after it, or nothing. -/
def readExponent (n : Nat) : Steps Bool := do
  if ← pass text (fun b => b == 'e'.toUInt8 || b == 'E'.toUInt8) then
    let _ ← pass text (fun b => b == '+'.toUInt8 || b == '-'.toUInt8)
    readDigits text n
    return true
  else return false

def readNumber (n : Nat) : Steps Value := do
  let first := (← get).place
  let _ ← pass text (· == '-'.toUInt8)
  readDigits text n
  let fraction ← readFraction text n
  let exponent ← readExponent text n
  let raw ← cut text first (← get).place
  return if fraction || exponent then .real raw else .integer raw

/-! ## Containers -/

/-- Another container is open. The fault of one too many is at its opening bracket. -/
def enter : Steps Unit := do
  modify fun c => { c with depth := c.depth + 1 }
  if maxDepth < (← get).depth then stop .tooDeep

def leave : Steps Unit := do
  if (← get).depth = 0 then throw (.breach .nothingOpen)
  modify fun c => { c with depth := c.depth - 1 }

/-- Behind an item: whether another one follows, or the closing character. -/
def goesOn (closer : Char) (n : Nat) : Steps Bool := do
  skipBlanks text n
  match ← peek text with
  | none => stop .unexpectedEnd
  | some b =>
    if b = ','.toUInt8 then
      advance 1
      return true
    else if b = closer.toUInt8 then
      advance 1
      return false
    else stop (.missingSeparator closer)

/-- The name of a member, and the colon behind it. -/
def readName (n : Nat) : Steps String := do
  skipBlanks text n
  demand text '"' .expectedMemberName
  let name ← readString text
  skipBlanks text n
  demand text ':' .missingColon
  advance 1
  return name

/-! ## Values -/

mutual

def readValue : Nat → Steps Value
  | 0 => unfinished
  | n + 1 => do
    skipBlanks text n
    match ← peek text with
    | none => unexpected text
    | some b =>
      if b = '{'.toUInt8 then readObject n
      else if b = '['.toUInt8 then readArray n
      else if b = '"'.toUInt8 then return .string (← readString text)
      else if b = 't'.toUInt8 then readWord text .true
      else if b = 'f'.toUInt8 then readWord text .false
      else if b = 'n'.toUInt8 then readWord text .null
      else if b == '-'.toUInt8 || isDigitByte b then readNumber text n
      else unexpected text

def readArray : Nat → Steps Value
  | 0 => unfinished
  | n + 1 => do
    enter
    advance 1
    skipBlanks text n
    if ← pass text (· == ']'.toUInt8) then
      leave
      return .array []
    else
      let items ← readItems n []
      leave
      return .array items

def readItems : Nat → List Value → Steps (List Value)
  | 0, _ => unfinished
  | n + 1, known => do
    let v ← readValue n
    if ← goesOn text ']' n then readItems n (known ++ [v]) else return known ++ [v]

def readObject : Nat → Steps Value
  | 0 => unfinished
  | n + 1 => do
    enter
    advance 1
    skipBlanks text n
    if ← pass text (· == '}'.toUInt8) then
      leave
      return .object []
    else
      let members ← readMembers n []
      leave
      return .object members

def readMembers : Nat → List (String × Value) → Steps (List (String × Value))
  | 0, _ => unfinished
  | n + 1, known => do
    let name ← readName text n
    let v ← readValue n
    if ← goesOn text '}' n then readMembers n (known ++ [(name, v)])
    else return known ++ [(name, v)]

end

/-- One value and nothing but blanks around it. -/
def readDocument (n : Nat) : Steps Value := do
  let v ← readValue text n
  skipBlanks text n
  if (← get).place < (bytes text).length then stop .trailingCharacters
  return v

/-- The whole text, from its start on. -/
def parse (n : Nat) : Option (Except Failure Value) := (readDocument text n).run' ⟨0, 0⟩

end Cursor

end SchemaInference.Document
