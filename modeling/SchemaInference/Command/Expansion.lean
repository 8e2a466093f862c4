/-
The paths that a pattern stands for, directory by directory in the order of the names. A literal part
is looked up and not searched for. The entries `.` and `..` fit only a part that itself starts with a
point. Under two stars a directory comes first by its own name and then by what is in it. In place of
what is in a directory that cannot be searched there is a fault.
-/
import SchemaInference.Command.Pattern
import SchemaInference.Command.Workspace

namespace SchemaInference.Command

/-- The files and directories that a pattern is searched in. -/
structure Directories (m : Type → Type) where
  isThere : String → m Bool
  isDirectory : String → m Bool
  /-- The names in a directory, ascending. -/
  children : String → m (Except FileFault (List String))

/-! ## Paths -/

/-- The path of `name` in the directory `dir`. -/
def joinPath (dir name : String) : String :=
  if dir.isEmpty || dir.endsWith "/" then dir ++ name else dir ++ "/" ++ name

/-- Whether a path is the working directory itself, however often it says so. -/
def isHere (path : String) : Bool :=
  match path.splitOn "/" with
  | "." :: parts => parts.all isIdle
  | _ => false

/-- The path of `name` in the directory `dir`; the working directory is left out. -/
def inside (dir name : String) : String := if isHere dir then name else joinPath dir name

/-! ## Searching -/

namespace Pattern

variable {m : Type → Type} [Monad m]

/-- What is found for each name in the directory, one after the other. -/
def eachChild (d : Directories m) (path : String) (found : String → m Entries) : m Entries := do
  match ← d.children path with
  | .error f => return [.error f]
  | .ok names => return (← names.mapM found).flatten

/-- What is found for each name in the directory and in those below it, `levels` of them at most. -/
def eachBelow (d : Directories m) (found : String → String → m Entries) :
    Nat → String → m Entries
  | 0, _ => return [.error .nameTooLong]
  | levels + 1, path =>
    eachChild d path fun name => do
      let own ← found name (inside path name)
      if ← d.isDirectory (inside path name) then
        return own ++ (← eachBelow d found levels (inside path name))
      else return own

/-- From a path that fits all parts before these, the paths that fit these as well. -/
def search (d : Directories m) (directories : Bool) : List Part → String → m Entries
  | [], path => do return if !directories || (← d.isDirectory path) then [.ok path] else []
  | .literal name :: parts, path => do
    let there ←
      if name = "." || name = ".." then d.isDirectory path else d.isThere (inside path name)
    if there then search d directories parts (inside path name) else return []
  | .pieces ps :: parts, path => do
    let part : Part := .pieces ps
    if ← d.isDirectory path then
      let points := if part.startsWithPoint then ["..", "."].filter part.fits else []
      let above ← points.mapM fun name => search d directories parts (joinPath path name)
      let below ← eachChild d path fun name =>
        if part.fits name then search d directories parts (inside path name) else pure []
      return above.flatten ++ below
    else return []
  | .anyDepth :: .anyDepth :: parts, path => search d directories (.anyDepth :: parts) path
  | .anyDepth :: parts, path => do
    let found (name path : String) : m Entries := do
      match parts with
      | [] => return if ← d.isDirectory path then [.ok path] else []
      | part :: parts => if part.fits name then search d directories parts path else return []
    -- each level takes a byte of the path or more
    if ← d.isDirectory path then eachBelow d found Workspace.maxPathSize path else return []

/-- The paths, in order. -/
def expand (d : Directories m) (p : Pattern) : m Entries :=
  search d p.directories p.parts (if p.absolute then "/" else ".")

end Pattern

/-- What the text of a pattern stands for, if it is one. -/
def expandText? {m : Type → Type} [Monad m] (d : Directories m) (text : String) :
    m (Option Entries) := do
  match Pattern.ofText? text with
  | none => return none
  | some p => return some (← p.expand d)

namespace Workspace

def look (w : Workspace) : Directories Id where
  isThere := w.isThere
  isDirectory := w.isDirectory
  children path := .ok (w.children path)

/-- What patterns stand for in the workspace. -/
def glob (w : Workspace) : Expansion := fun text => (expandText? w.look text).run

end Workspace

end SchemaInference.Command
