/-
A directory with what is in it, as a value. Files and directories are told by the names on the way
to them; what a file holds is what comes of reading it, a text or a fault. As a host it behaves like
the files of a machine, with the workspace for working directory; around it there is nothing but the
directories that lead to it. What patterns stand for is given with the host.
-/
import SchemaInference.Command.Host

namespace SchemaInference.Command

/-- The names from the workspace down; outside of it, from the root, which is named by a slash, or
from a directory above, after as many double points as lead there. -/
abbrev Place : Type := List String

structure Workspace where
  directories : List Place
  files : List (Place × Content)
  input : Content
deriving DecidableEq, Repr

namespace Workspace

/-! ## Places -/

/-- All places above, the workspace itself left out. -/
def above (p : Place) : List Place := (List.range (p.length - 1)).map fun n => p.take (n + 1)

def placeOf (path : String) : Place := (path.splitOn "/").filter (!isIdle ·)

def pathOf (p : Place) : String := "/".intercalate p

/-- The workspace, a directory above it, or the root. -/
def isTop (p : Place) : Bool := p.all (· = "..") || p = ["/"]

def isOutside (p : Place) : Bool := p.head? = some ".." || p.head? = some "/"

/-- The directory above. -/
def up (p : Place) : Place :=
  if p = ["/"] then p else if isTop p then p ++ [".."] else p.dropLast

def isDirectoryAt (w : Workspace) (p : Place) : Bool := isTop p || p ∈ w.directories

def fileAt? (w : Workspace) (p : Place) : Option Content := (w.files.find? (·.1 = p)).map (·.2)

def addDirectory (w : Workspace) (p : Place) : Workspace :=
  if w.isDirectoryAt p then w else { w with directories := w.directories ++ [p] }

/-- The file at `p` now holds `text`. -/
def putFile (w : Workspace) (p : Place) (text : String) : Workspace :=
  { w with files := w.files.filter (·.1 ≠ p) ++ [(p, .ok text)] }

/-- Files and an input that are all text. The directories on the way to each file are there too. -/
def ofFiles (files : List (String × String)) (input : String) : Workspace :=
  files.foldl
    (fun w (path, text) =>
      let p := placeOf path
      ((above p).foldl addDirectory w).putFile p text)
    ⟨[], [], .ok input⟩

/-- The texts of the files inside that were not there before, or held something else, in the order of
their paths. -/
def changes (before after : Workspace) : List (String × String) :=
  let changed := after.files.filter fun f => !isOutside f.1 && before.fileAt? f.1 ≠ some f.2
  let texts := changed.filterMap fun f => f.2.toOption.map fun text => (pathOf f.1, text)
  texts.mergeSort fun a b => a.1 ≤ b.1

/-! ## Following a path -/

/-- Where a path leads. -/
inductive Spot where
  | directory (p : Place)
  | file (p : Place) (content : Content)
  | vacant (p : Place)
deriving DecidableEq, Repr

/-- The bytes that a name may have. -/
def maxNameSize : Nat := 255

/-- The bytes that a path may have. -/
def maxPathSize : Nat := 4095

/-- From the directory at `p` on, part by part. -/
def follow (w : Workspace) (p : Place) : List String → Except FileFault Spot
  | [] => .ok (.directory p)
  | part :: parts =>
    if isIdle part then w.follow p parts
    else if part = ".." then w.follow (up p) parts
    else if maxNameSize < part.utf8ByteSize then .error .nameTooLong
    else
      let q := p ++ [part]
      if w.isDirectoryAt q then w.follow q parts
      else
        match w.fileAt? q with
        | some content => if parts = [] then .ok (.file q content) else .error .notADirectory
        | none => if parts = [] then .ok (.vacant q) else .error .notFound

/-- The place that a path starts at. -/
def start (path : String) : Place := if path.startsWith "/" then ["/"] else []

/-- The parts of a path; an empty path has none, and leads nowhere. -/
def parts (path : String) : Except FileFault (List String) :=
  if path.toList.contains '\x00' then .error .malformedPath
  else if path.isEmpty then .error .notFound
  else if maxPathSize < path.utf8ByteSize then .error .nameTooLong
  else .ok (path.splitOn "/")

def spot (w : Workspace) (path : String) : Except FileFault Spot := do
  w.follow (start path) (← parts path)

/-! ## Reading -/

def readFile (w : Workspace) (path : String) : Content :=
  match w.spot path with
  | .ok (.file _ content) => content
  | .ok (.directory _) => .error .isADirectory
  | .ok (.vacant _) => .error .notFound
  | .error f => .error f

def isDirectory (w : Workspace) (path : String) : Bool :=
  match w.spot path with
  | .ok (.directory _) => true
  | _ => false

def isThere (w : Workspace) (path : String) : Bool :=
  match w.spot path with
  | .ok (.directory _) => true
  | .ok (.file ..) => true
  | _ => false

def children (w : Workspace) (path : String) : List String :=
  match w.spot path with
  | .ok (.directory p) =>
    let entries := w.directories ++ w.files.map (·.1)
    let names := (entries.filter fun q => q ≠ [] && q.dropLast = p).filterMap List.getLast?
    names.mergeSort fun a b => a ≤ b
  | _ => []

/-! ## Writing -/

/-- The last part that is more than a slash, and those before it with a slash at their end. -/
def lastPart (parts : List String) : String × List String :=
  match parts.reverse.dropWhile (· = "") with
  | [] => ("", [])
  | last :: before => (last, ("" :: before).reverse)

/-- A name at the end of a path, and a slash after it, is that of a directory, whether there is one
or not. -/
def writeFile (w : Workspace) (path text : String) : Except FileFault Workspace := do
  let (last, before) := lastPart (← parts path)
  let _ ← w.follow (start path) before
  if path.endsWith "/" && !isIdle last && last != ".." then throw .isADirectory
  match ← w.spot path with
  | .file p _ => return w.putFile p text
  | .vacant p => return w.putFile p text
  | .directory _ => throw .isADirectory

/-- The directory that it is in has to be there, and nothing else of the name. -/
def makeDirectory (w : Workspace) (path : String) : Except FileFault Workspace := do
  match ← w.follow (start path) ((← parts path).reverse.dropWhile (· = "")).reverse with
  | .vacant p => return w.addDirectory p
  | _ => throw .alreadyExists

/-- A directory that is there already does as well. -/
def ensureDirectory (w : Workspace) (path : String) : Except FileFault Workspace :=
  match w.makeDirectory path with
  | .error .alreadyExists =>
    if w.isDirectory path then .ok w else .error .alreadyExists
  | r => r

/-- The path and those above it, upwards; at most `n`. -/
def pathsUp : Nat → String → List String
  | 0, _ => []
  | n + 1, path => if path.isEmpty then [] else path :: ((parentPath? path).elim [] (pathsUp n))

/-- What is there after a change that may fail; a change that fails is none. -/
def apply (change : Workspace → Except FileFault Workspace) :
    StateM Workspace (Except FileFault Unit) := fun w =>
  match change w with
  | .ok w' => (.ok (), w')
  | .error f => (.error f, w)

/-- The first of the paths as a directory, for want of what it is in after those that follow. What has
been made before a fault stays. -/
def ensureDirectories : List String → StateM Workspace (Except FileFault Unit)
  | [] => return .ok ()
  | path :: above => do
    match ← apply (·.ensureDirectory path) with
    | .error .notFound => do
      match ← ensureDirectories above with
      | .error f => return .error f
      | .ok () => apply (·.ensureDirectory path)
    | r => return r

def makeDirectories (path : String) : StateM Workspace (Except FileFault Unit) :=
  ensureDirectories (pathsUp path.length path)

/-! ## The host -/

/-- What is given for the texts of patterns: entries, or nothing where it is none. -/
abbrev Expansion : Type := String → Option Entries

def host (given : Expansion) : Host (StateM Workspace) where
  readFile path := fun w => (w.readFile path, w)
  readInput := fun w => (w.input, { w with input := .ok "" })
  expand? text := pure (given text)
  makeDirectories := makeDirectories
  writeFile path text := apply (·.writeFile path text)

end Workspace

end SchemaInference.Command
