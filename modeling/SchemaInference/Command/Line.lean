/-
The command line: which words are understood, and what they ask for. Words are taken one by one from
the left. An option that takes values gathers them from the words after it and is settled when the
next known option begins or the line ends, so a fault of its values shows then, while a word that
nobody understands is refused at once.
-/
import SchemaInference.Settings

namespace SchemaInference.Command

open Schema

/-- What the command `schema` is to do. -/
structure Request where
  inputs : List String := []
  settingsFile : Option String := none
  rootName : Option String := none
  mapPaths : List String := []
  dialect : Option Dialect := none
  output : Option String := none
  useView : Bool := false
  strict : Bool := false
  hideNullOnly : Bool := false
  noOp : Bool := false
deriving DecidableEq, Repr

structure Invocation where
  verbosity : Nat
  request : Request
deriving DecidableEq, Repr

/-- Why a command line asks for no work. -/
inductive Usage where
  | displayHelp
  | displayHelpOnMissing
  | missingSubcommand
  | missingRequired
  | invalidValue
  | unknownArgument
  | invalidSubcommand
  | repeated
  | tooManyValues
deriving DecidableEq, Repr

/-! ## Options -/

/-- The options that take a value, of which `input` takes as many as there are. -/
inductive Valued where
  | input
  | output
  | settingsFile
  | rootName
  | mapPath
  | dialect
deriving DecidableEq, Repr

inductive Switch where
  | useView
  | strict
  | hideNullOnly
  | noOp
  | verbose
  | help
deriving DecidableEq, Repr

inductive Opt where
  | valued (v : Valued)
  | switch (s : Switch)
deriving DecidableEq, Repr

def Opt.ofLong? : String → Option Opt
  | "input" => some (.valued .input)
  | "out" => some (.valued .output)
  | "config" => some (.valued .settingsFile)
  | "root-name" => some (.valued .rootName)
  | "kv-path" => some (.valued .mapPath)
  | "dialect" => some (.valued .dialect)
  | "use-view" => some (.switch .useView)
  | "strict" => some (.switch .strict)
  | "hide-null-only" => some (.switch .hideNullOnly)
  | "no-op" => some (.switch .noOp)
  | "verbose" => some (.switch .verbose)
  | "help" => some (.switch .help)
  | _ => none

def Opt.ofShort? : Char → Option Opt
  | 'i' => some (.valued .input)
  | 'o' => some (.valued .output)
  | 'v' => some (.switch .verbose)
  | 'h' => some (.switch .help)
  | _ => none

/-- The options that are understood before the command. -/
def Opt.isGlobal : Opt → Bool
  | .switch .verbose => true
  | .switch .help => true
  | _ => false

/-! ## Words -/

inductive Word where
  /-- Two dashes and a name, and what follows an equals sign after the name. -/
  | long (name : String) (attached : Option String)
  /-- One dash and letters. -/
  | short (letters : List Char)
  | plain (text : String)
deriving DecidableEq, Repr

/-- A dash alone is a plain word. -/
def Word.ofText (text : String) : Word :=
  match text.toList with
  | '-' :: '-' :: cs =>
    let name := String.ofList (cs.takeWhile (· != '='))
    match cs.dropWhile (· != '=') with
    | [] => .long name none
    | _ :: value => .long name (some (String.ofList value))
  | '-' :: c :: cs => .short (c :: cs)
  | _ => .plain text

/-! ## Settling options -/

/-- A value for what may be given once. -/
def once {α : Type} (known : Option α) (value : Except Usage α) : Except Usage (Option α) :=
  if known.isSome then .error .repeated else value.map some

/-- A path may not be empty. -/
def pathValue (text : String) : Except Usage String :=
  if text.isEmpty then .error .invalidValue else .ok text

def dialectValue (text : String) : Except Usage Dialect :=
  match Dialect.ofName? text with
  | some d => .ok d
  | none => .error .invalidValue

namespace Invocation

/-- An option and all its values, at least one. -/
def give (i : Invocation) (v : Valued) : List String → Except Usage Invocation
  | [] => .error .invalidValue
  | x :: xs =>
    let r := i.request
    match v with
    | .input => .ok { i with request.inputs := r.inputs ++ x :: xs }
    | .mapPath => .ok { i with request.mapPaths := r.mapPaths ++ x :: xs }
    | .output => do return { i with request.output := ← once r.output (pathValue x) }
    | .settingsFile => do
      return { i with request.settingsFile := ← once r.settingsFile (pathValue x) }
    | .rootName => do return { i with request.rootName := ← once r.rootName (.ok x) }
    | .dialect => do return { i with request.dialect := ← once r.dialect (dialectValue x) }

/-- The help is what a line is refused with. -/
def raise (i : Invocation) (s : Switch) : Except Usage Invocation :=
  let r := i.request
  match s with
  | .verbose => .ok { i with verbosity := i.verbosity + 1 }
  | .help => .error .displayHelp
  | .useView => if r.useView then .error .repeated else .ok { i with request.useView := true }
  | .strict => if r.strict then .error .repeated else .ok { i with request.strict := true }
  | .hideNullOnly =>
    if r.hideNullOnly then .error .repeated else .ok { i with request.hideNullOnly := true }
  | .noOp => if r.noOp then .error .repeated else .ok { i with request.noOp := true }

end Invocation

/-! ## The words after the command -/

/-- What has been understood so far, and the option that still takes values. -/
structure Reading where
  invocation : Invocation
  pending : Option (Valued × List String)

namespace Reading

/-- The option that still took values takes no more. -/
def settle (r : Reading) : Except Usage Invocation :=
  match r.pending with
  | none => .ok r.invocation
  | some (v, values) => r.invocation.give v values

def takesMore : Valued × List String → Bool
  | (.input, _) => true
  | (_, values) => values.isEmpty

def switch (r : Reading) (s : Switch) : Except Usage Reading := do
  return ⟨← (← r.settle).raise s, none⟩

/-- An option with the value that is attached to it, if there is one. -/
def valued (r : Reading) (v : Valued) (attached : Option String) : Except Usage Reading := do
  let settled ← r.settle
  match attached with
  | some x => return ⟨← settled.give v [x], none⟩
  | none => return ⟨settled, some (v, [])⟩

/-- An option that takes a value takes the letters after it as that value. -/
def letters (r : Reading) : List Char → Except Usage Reading
  | [] => .ok r
  | c :: cs =>
    match Opt.ofShort? c with
    | none => .error .unknownArgument
    | some (.switch s) => do (← r.switch s).letters cs
    | some (.valued v) =>
      match cs with
      | [] => r.valued v none
      | '=' :: value => r.valued v (some (String.ofList value))
      | value => r.valued v (some (String.ofList value))

def word (r : Reading) : Word → Except Usage Reading
  | .long name attached =>
    match Opt.ofLong? name with
    | none => .error .unknownArgument
    | some (.valued v) => r.valued v attached
    | some (.switch s) => if attached.isSome then .error .tooManyValues else r.switch s
  | .short cs => r.letters cs
  | .plain text =>
    match r.pending with
    | none => .error .unknownArgument
    | some (v, values) =>
      if takesMore (v, values) then .ok { r with pending := some (v, values ++ [text]) }
      else .error .unknownArgument

/-- The line has ended. -/
def finish (r : Reading) : Except Usage Invocation := do
  let i ← r.settle
  if i.request.inputs.isEmpty then throw .missingRequired
  return i

/-- After two dashes nothing may follow. -/
def words (r : Reading) : List String → Except Usage Invocation
  | [] => r.finish
  | "--" :: rest => if rest.isEmpty then r.finish else .error .unknownArgument
  | text :: rest => do (← r.word (.ofText text)).words rest

end Reading

/-! ## The whole line -/

/-- The words after `help` have to name a command. -/
def help : List String → Usage
  | [] => .displayHelp
  | ["schema"] => .displayHelp
  | ["help"] => .displayHelp
  | _ => .invalidSubcommand

/-- The letters before the command raise the verbosity; the help ends the reading. -/
def globalLetters (verbosity : Nat) : List Char → Except Usage Nat
  | [] => .ok verbosity
  | c :: cs =>
    match Opt.ofShort? c with
    | some (.switch .verbose) => globalLetters (verbosity + 1) cs
    | some (.switch .help) => .error .displayHelp
    | _ => .error .unknownArgument

/-- One word before the command, other than a command. -/
def globalWord (verbosity : Nat) : Word → Except Usage Nat
  | .long name attached =>
    match (Opt.ofLong? name).filter Opt.isGlobal with
    | none => .error .unknownArgument
    | some o =>
      if attached.isSome then .error .tooManyValues
      else if o = .switch .help then .error .displayHelp else .ok (verbosity + 1)
  | .short cs => globalLetters verbosity cs
  | .plain _ => .error .invalidSubcommand

/-- No command was given. -/
def missing (verbosity : Nat) : Usage :=
  if verbosity = 0 then .displayHelpOnMissing else .missingSubcommand

/-- The verbosity before the command counts where there is none after it. -/
def parseFrom (verbosity : Nat) : List String → Except Usage Invocation
  | [] => .error (missing verbosity)
  | "schema" :: rest => do
    let i ← Reading.words ⟨⟨0, {}⟩, none⟩ rest
    return if i.verbosity = 0 then { i with verbosity } else i
  | "help" :: rest => .error (help rest)
  | "--" :: [] => .error (missing verbosity)
  | "--" :: text :: _ =>
    .error (if text = "schema" || text = "help" then .unknownArgument else .invalidSubcommand)
  | text :: rest => do parseFrom (← globalWord verbosity (.ofText text)) rest

/-- What the words after the name of the program ask for. -/
def parse (args : List String) : Except Usage Invocation := parseFrom 0 args

/-! ## What follows from an invocation -/

def Invocation.level (i : Invocation) : Level :=
  match i.verbosity with
  | 0 => .warn
  | 1 => .info
  | 2 => .debug
  | _ => .trace

/-- The settings of a file, or the default ones, with what the line says on top: first the dialect,
then the root, then the map paths. -/
def Request.settings (r : Request) (file : Settings) : Settings :=
  let c := r.dialect.elim file file.withDialect
  let c := r.rootName.elim c c.withRootName
  let c := r.mapPaths.foldl Settings.withMapPath c
  let c := if r.useView then c.withUseView true else c
  if r.strict then c.withPolicy .strict else c

end SchemaInference.Command
