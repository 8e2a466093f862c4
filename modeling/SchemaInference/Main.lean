/-
The program: the command line run on the files of the machine. The view goes to the standard output
or into a file; events, failures and what is wrong with the command line go to the standard error.
-/
import SchemaInference.Command.Expansion
import SchemaInference.Command.LogFilter
import SchemaInference.Command.Report

namespace SchemaInference.Command

/-! ## The machine as a host -/

def FileFault.ofError : IO.Error → FileFault
  | .noFileOrDirectory .. => .notFound
  | .inappropriateType .. => .isADirectory
  | .alreadyExists .. => .alreadyExists
  | e => .other (toString e)

def attempt {α : Type} (action : IO α) : IO (Except FileFault α) := do
  try return .ok (← action) catch e => return .error (.ofError e)

/-- What the bytes are as a text. -/
def textOf (bytes : ByteArray) : Content :=
  match String.fromUTF8? bytes with
  | some text => .ok text
  | none => .error .notText

def attemptText (read : IO ByteArray) : IO Content := do return (← attempt read).bind textOf

def machineInfo? (path : String) : IO (Option IO.FS.Metadata) := do
  if path.isEmpty then return none
  match ← attempt ((← IO.currentDir) / path).metadata with
  | .error _ => return none
  | .ok info => return some info

def machineFiles : Directories IO where
  isThere path := return (← machineInfo? path).isSome
  isDirectory path := return (← machineInfo? path).any (·.type == .dir)
  children path := attempt do
    let entries ← ((← IO.currentDir) / path).readDir
    return (entries.toList.map (·.fileName)).mergeSort fun a b => a ≤ b

partial def readAll (stream : IO.FS.Stream) (bytes : ByteArray) : IO ByteArray := do
  let more ← stream.read 65536
  if more.isEmpty then return bytes else readAll stream (bytes ++ more)

def machine : Host IO where
  readFile path := attemptText (IO.FS.readBinFile path)
  readInput := attemptText do readAll (← IO.getStdin) .empty
  expand? := expandText? machineFiles
  makeDirectories path := do
    if path.isEmpty then return .ok () else attempt (IO.FS.createDirAll path)
  writeFile path text := attempt (IO.FS.writeFile path text)

/-! ## What is printed -/

def usageText : String :=
  "Usage: schema-inference [-v...] schema --input <INPUT>... [--out <OUT>] [--config <CONFIG>]\n" ++
  "  [--root-name <NAME>] [--kv-path <PATH>]... [--dialect <cpp|rust>] [--use-view] [--strict]\n" ++
  "  [--hide-null-only] [--no-op]"

def Usage.isHelp : Usage → Bool
  | .displayHelp => true
  | _ => false

def eventLine (e : Event) : String :=
  let fields := e.fields.map fun f => " " ++ f.1 ++ "=" ++ f.2
  e.level.name ++ " " ++ e.message ++ String.join fields

def FileFault.message : FileFault → String
  | .notFound => "no such file or directory"
  | .isADirectory => "is a directory"
  | .notADirectory => "is not a directory"
  | .alreadyExists => "a file stands in the way"
  | .nameTooLong => "name too long"
  | .malformedPath => "malformed path"
  | .notText => "not a text in UTF-8"
  | .other message => message

def Failure.cause : Failure → String
  | .settingsUnread _ f => f.message
  | .settingsRejected _ => "configuration error"
  | .patternInvalid _ => ""
  | .patternUnexpanded _ f => f.message
  | .patternUnmatched _ => ""
  | .sourceUnread _ f => f.message
  | .refused _ r => r.message
  | .directoryUnmade _ f => f.message
  | .unwritten _ f => f.message

def perform (i : Invocation) : IO UInt32 := do
  let filter := i.logFilter (← IO.getEnv "SCHEMA_LOG")
  let report ← run machine i.request
  for e in report.events do
    if (directiveLevel? filter).any e.shownAt then IO.eprintln (eventLine e)
  match report.failure with
  | none =>
    IO.print report.output
    return 0
  | some f =>
    IO.eprintln ("Error: " ++ f.message)
    unless f.cause.isEmpty do IO.eprintln ("Caused by: " ++ f.cause)
    return 1

end SchemaInference.Command

open SchemaInference.Command in
def main (args : List String) : IO UInt32 := do
  match parse args with
  | .ok i => perform i
  | .error u =>
    if u.isHelp then
      IO.println usageText
      return 0
    else
      IO.eprintln usageText
      return 2
