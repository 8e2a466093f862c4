/-
What a command needs of the place where it runs: files and directories, told by the text of a path,
the paths that a pattern stands for, and the standard input. How the text of a path is taken apart is
decided here.
-/
namespace SchemaInference.Command

/-! ## Paths -/

/-- A part of a path that stays where it is. -/
def isIdle (part : String) : Bool := part = "" || part = "."

/-- The parts up to the last one that leads anywhere; the first one is kept. -/
def dropIdleEnd (parts : List String) : List String :=
  match parts with
  | [] => []
  | first :: rest => first :: (rest.reverse.dropWhile isIdle).reverse

/-- The directory that a path stands in: its text up to the last part that leads anywhere, empty for
a part alone. -/
def parentPath? (path : String) : Option String :=
  match path.splitOn "/" with
  | [""] => none
  | "" :: parts =>
    match (parts.reverse.dropWhile isIdle).reverse with
    | [] => none
    | parts => some ("/" ++ "/".intercalate (parts.dropLast.reverse.dropWhile isIdle).reverse)
  | parts => some ("/".intercalate (dropIdleEnd (dropIdleEnd parts).dropLast))

/-- Only a path with one of these characters is a pattern. -/
def isPattern (path : String) : Bool := path.toList.any fun c => c == '*' || c == '?' || c == '['

/-! ## Hosts -/

/-- Why a file or directory, or the standard input, could not be used. -/
inductive FileFault where
  | notFound
  | isADirectory
  | notADirectory
  | alreadyExists
  | nameTooLong
  /-- The path holds a character that no path may hold. -/
  | malformedPath
  /-- What was read is no text. -/
  | notText
  | other (message : String)
deriving DecidableEq, Repr

instance decidableEqExcept {ε α : Type} [DecidableEq ε] [DecidableEq α] :
    DecidableEq (Except ε α)
  | .ok a, .ok b => decidable_of_iff (a = b) ⟨congrArg _, Except.ok.inj⟩
  | .error e, .error f => decidable_of_iff (e = f) ⟨congrArg _, Except.error.inj⟩
  | .ok _, .error _ => isFalse nofun
  | .error _, .ok _ => isFalse nofun

/-- What comes of reading something: a text, if there is one to be had. -/
abbrev Content : Type := Except FileFault String

/-- What a pattern was expanded to: path by path, or a fault where a directory could not be searched. -/
abbrev Entries : Type := List (Except FileFault String)

structure Host (m : Type → Type) where
  readFile : String → m Content
  /-- All of the standard input, of which nothing is left from the second time on. -/
  readInput : m Content
  /-- What the pattern stands for, if it is one. -/
  expand? : String → m (Option Entries)
  /-- The directory and those on the way to it, as far as they are not there. -/
  makeDirectories : String → m (Except FileFault Unit)
  writeFile : String → String → m (Except FileFault Unit)

end SchemaInference.Command
