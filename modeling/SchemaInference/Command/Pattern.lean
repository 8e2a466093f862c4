/-
Patterns for the names of files. In one part of a path a star stands for any run of characters, a
question mark for any one character, and brackets for one of the characters or ranges in them, or
with an exclamation mark for one that is none of them. Two stars are a part of their own and stand
for any number of directories.
-/
namespace SchemaInference.Command

/-- A piece of a pattern. The ranges of a bracket are closed; a single character is a range. -/
inductive Piece where
  | char (c : Char)
  | anyChar
  | anyRun
  | oneOf (ranges : List (Char × Char))
  | noneOf (ranges : List (Char × Char))
deriving DecidableEq, Repr

/-- The pattern of one part of a path. -/
inductive Part where
  | literal (name : String)
  | pieces (ps : List Piece)
  | anyDepth
deriving DecidableEq, Repr

/-! ## Reading -/

/-- Three characters with a dash between are a range. -/
def ranges : List Char → List (Char × Char)
  | a :: '-' :: b :: cs => (a, b) :: ranges cs
  | a :: cs => (a, a) :: ranges cs
  | [] => []

/-- The characters up to the closing bracket, the first of which never closes, and the rest. -/
def bracketed? : List Char → Option (List Char × List Char)
  | [] => none
  | c :: cs =>
    match cs.dropWhile (· != ']') with
    | [] => none
    | _ :: rest => some (c :: cs.takeWhile (· != ']'), rest)

/-- What an opening bracket opens, and the rest. -/
def bracket? : List Char → Option (Piece × List Char)
  | '!' :: cs => (bracketed? cs).map fun (inside, rest) => (.noneOf (ranges inside), rest)
  | cs => (bracketed? cs).map fun (inside, rest) => (.oneOf (ranges inside), rest)

theorem length_lt_of_bracketed {cs inside rest : List Char}
    (h : bracketed? cs = some (inside, rest)) : rest.length < cs.length := by
  unfold bracketed? at h
  split at h
  · cases h
  · rename_i c cs
    split at h
    · cases h
    · rename_i d rest' hd
      cases h
      have := (List.dropWhile_suffix (fun x => x != ']') (l := cs)).length_le
      rw [hd] at this
      simp at this ⊢; omega

theorem length_lt_of_bracket {cs rest : List Char} {p : Piece}
    (h : bracket? cs = some (p, rest)) : rest.length < cs.length := by
  unfold bracket? at h
  split at h
  · obtain ⟨⟨inside, rest'⟩, hb, e⟩ := Option.map_eq_some_iff.1 h
    cases e
    exact Nat.lt_succ_of_lt (length_lt_of_bracketed hb)
  · obtain ⟨⟨inside, rest'⟩, hb, e⟩ := Option.map_eq_some_iff.1 h
    cases e
    exact length_lt_of_bracketed hb

/-- Two stars next to each other stand for nothing here. -/
def pieces? : List Char → Option (List Piece)
  | [] => some []
  | '*' :: '*' :: _ => none
  | '*' :: cs => (pieces? cs).map (.anyRun :: ·)
  | '?' :: cs => (pieces? cs).map (.anyChar :: ·)
  | '[' :: cs =>
    match h : bracket? cs with
    | none => none
    | some (p, rest) =>
      have := length_lt_of_bracket h
      (pieces? rest).map (p :: ·)
  | c :: cs => (pieces? cs).map (.char c :: ·)
termination_by cs => cs.length

def Piece.isChar : Piece → Bool
  | .char _ => true
  | _ => false

def Part.ofText? (text : String) : Option Part :=
  if text = "**" then some .anyDepth
  else do
    let ps ← pieces? text.toList
    return if ps.all Piece.isChar then .literal text else .pieces ps

/-- A pattern of a path, part by part. -/
structure Pattern where
  /-- Whether the path starts at the root of all files. -/
  absolute : Bool
  parts : List Part
  /-- Only directories are meant, since a slash ends the path. -/
  directories : Bool
deriving DecidableEq, Repr

/-- A pattern with a part that cannot be read is none. -/
def Pattern.ofText? (text : String) : Option Pattern := do
  let absolute := text.startsWith "/"
  let directories := text.endsWith "/"
  let names := text.splitOn "/"
  let names := if directories then names.dropLast else names
  let names := if absolute then names.dropWhile (· = "") else names
  return { absolute, parts := ← names.mapM Part.ofText?, directories }

/-! ## Matching -/

def inRanges (c : Char) (rs : List (Char × Char)) : Bool := rs.any fun r => r.1 ≤ c && c ≤ r.2

/-- Whether the piece may stand for the character alone. -/
def Piece.fits (p : Piece) (c : Char) : Bool :=
  match p with
  | .char d => c == d
  | .anyChar => true
  | .anyRun => true
  | .oneOf rs => inRanges c rs
  | .noneOf rs => !inRanges c rs

/-- Each flag set where it or a later one is. -/
def orLater : List Bool → List Bool
  | [] => []
  | b :: bs =>
    match orLater bs with
    | [] => [b]
    | later :: bs => (b || later) :: later :: bs

/-- For each end of a text, from the whole of it to the empty one, whether it fits the pieces. A
piece is set against each end only once, however many runs there are. -/
def matchEnds : List Piece → List Char → List Bool
  | [], cs => cs.map (fun _ => false) ++ [true]
  | .anyRun :: ps, cs => orLater (matchEnds ps cs)
  | p :: ps, cs => List.zipWith (p.fits · && ·) cs (matchEnds ps cs).tail ++ [false]

def matchPieces (ps : List Piece) (cs : List Char) : Bool := (matchEnds ps cs).headD false

namespace Part

/-- The name of a file or directory fits the part. -/
def fits (p : Part) (name : String) : Bool :=
  match p with
  | .literal text => name = text
  | .pieces ps => matchPieces ps name.toList
  | .anyDepth => true

/-- Whether the part asks for names that start with a point. -/
def startsWithPoint : Part → Bool
  | .pieces (.char '.' :: _) => true
  | _ => false

end Part

end SchemaInference.Command
