/-
What comes of a command. The settings are read first, then every pattern is expanded, then the
sources are read and observed one by one; the first of these that fails is the failure that is
reported, with nothing read after it, and only the view of a run that went well is written. What is
inferred from the sources (`inferSources`) is the same run as that of the library, with a failure
naming its source.
-/
import SchemaInference.Command.Host
import SchemaInference.Command.Line
import SchemaInference.Settings.File
import SchemaInference.View.Render

namespace SchemaInference.Command

open Schema Traced

inductive Source where
  | standardInput
  | file (path : String)
deriving DecidableEq, Repr

def Source.label : Source → String
  | .standardInput => "<stdin>"
  | .file path => path

inductive Failure where
  | settingsUnread (path : String) (f : FileFault)
  | settingsRejected (path : String)
  | patternInvalid (pattern : String)
  | patternUnexpanded (pattern : String) (f : FileFault)
  | patternUnmatched (pattern : String)
  | sourceUnread (source : Source) (f : FileFault)
  | refused (source : Source) (r : Refusal)
  | directoryUnmade (path : String) (f : FileFault)
  | unwritten (path : String) (f : FileFault)
deriving DecidableEq, Repr

/-- What could not be done; the cause is told apart. -/
def Failure.message : Failure → String
  | .settingsUnread path _ => "failed to load config file " ++ path
  | .settingsRejected path => "failed to load config file " ++ path
  | .patternInvalid pattern => "invalid glob pattern: " ++ pattern
  | .patternUnexpanded pattern _ => "failed to expand glob pattern: " ++ pattern
  | .patternUnmatched pattern => "glob pattern matched no files: " ++ pattern
  | .sourceUnread .standardInput _ => "failed to read stdin"
  | .sourceUnread (.file path) _ => "failed to read source file " ++ path
  | .refused source _ => "failed to infer schema from " ++ source.label
  | .directoryUnmade path _ => "failed to create output directory " ++ path
  | .unwritten path _ => "failed to write " ++ path

structure Report where
  /-- The text for the standard output. -/
  output : String
  events : List Event
  failure : Option Failure

def Report.failed (events : List Event) (f : Failure) : Report := ⟨"", events, some f⟩

/-! ## Settings and sources -/

variable {m : Type → Type} [Monad m]

def loadSettings (h : Host m) (r : Request) : m (Except Failure Settings) := do
  match r.settingsFile with
  | none => return .ok (r.settings .default)
  | some path =>
    match ← h.readFile path with
    | .error f => return .error (.settingsUnread path f)
    | .ok text =>
      match Settings.ofText? text with
      | none => return .error (.settingsRejected path)
      | some c => return .ok (r.settings c)

/-- The files that were found for a pattern. -/
def sourcesFound (pattern : String) : Option Entries → Except Failure (List Source)
  | none => .error (.patternInvalid pattern)
  | some entries =>
    match entries.mapM id with
    | .error f => .error (.patternUnexpanded pattern f)
    | .ok [] => .error (.patternUnmatched pattern)
    | .ok paths => .ok (paths.map .file)

/-- The sources that one input stands for. -/
def sourcesOf (h : Host m) (input : String) : m (Except Failure (List Source)) := do
  if input = "-" then return .ok [.standardInput]
  else if isPattern input then return sourcesFound input (← h.expand? input)
  else return .ok [.file input]

def allSources (h : Host m) : List String → m (Except Failure (List Source))
  | [] => return .ok []
  | input :: inputs => do
    match ← sourcesOf h input with
    | .error f => return .error f
    | .ok sources => return (← allSources h inputs).map (sources ++ ·)

/-! ## Inference -/

def readSource (h : Host m) : Source → m Content
  | .standardInput => h.readInput
  | .file path => h.readFile path

/-- One source, as it was read, observed. -/
def observeSource (r : Run) (source : Source) : Content → Traced Failure Run
  | .error f => fail (.sourceUnread source f)
  | .ok text => do
    emit (.loaded source.label text.utf8ByteSize)
    (r.observeText text).mapFault (.refused source)

/-- Each source is read when all before it are observed. -/
def observeSources (h : Host m) (r : Run) : List Source → m (Traced Failure Run)
  | [] => return pure r
  | source :: sources => do
    let t := observeSource r source (← readSource h source)
    match t.outcome with
    | .error _ => return t
    | .ok r => do
      let rest ← observeSources h r sources
      return t >>= fun _ => rest

def inferSources (h : Host m) (c : Settings) (sources : List Source) :
    m (Traced Failure Inferred) := do
  let t ← observeSources h (Run.start c) sources
  return do
    let s := (← t).finish
    emit (.finished s.documents s.registry.size)
    return s

/-! ## Delivery -/

/-- The directory that a file goes to, made if it has to be. -/
def prepare (h : Host m) (path : String) : m (Except Failure Unit) := do
  match parentPath? path with
  | none => return .ok ()
  | some dir =>
    match ← h.makeDirectories dir with
    | .error f => return .error (.directoryUnmade dir f)
    | .ok () => return .ok ()

/-- The view goes to a file, or to the output as a line. -/
def deliver (h : Host m) (target : Option String) (view : String) :
    m (Except Failure String) := do
  match target with
  | none => return .ok (view ++ "\n")
  | some path =>
    match ← prepare h path with
    | .error f => return .error f
    | .ok () =>
      match ← h.writeFile path view with
      | .error f => return .error (.unwritten path f)
      | .ok () => return .ok ""

/-! ## The command -/

def run (h : Host m) (r : Request) : m Report := do
  if r.noOp then return ⟨"", [], none⟩
  match ← loadSettings h r with
  | .error f => return .failed [] f
  | .ok c =>
    match ← allSources h r.inputs with
    | .error f => return .failed [.settled] f
    | .ok sources =>
      let t ← inferSources h c sources
      let events := .settled :: t.events
      match t.outcome with
      | .error f => return .failed events f
      | .ok s =>
        match ← deliver h r.output ((View.render r.hideNullOnly s).pretty 0) with
        | .error f => return .failed events f
        | .ok output => return ⟨output, events, none⟩

end SchemaInference.Command
