/-
  The program.

  Reads the files that the arguments name, hands everything to `Command.run`
  and writes what comes out of it.
-/
import Sendability.Command.Run

namespace Sendability.Command

/-- The reason behind an error of the operating system. -/
def faultOf : IO.Error → FileFault
  | .noFileOrDirectory .. => .notFound
  | .inappropriateType _ code reason | .invalidArgument _ code reason
  | .permissionDenied _ code reason | .otherError code reason =>
    match code.toNat with
    | 20 => .notDirectory
    | 21 => .isDirectory
    | 36 => .nameTooLong
    | n => .other n reason
  | e => .other 0 (toString e)

/-- The octets of a file. -/
def readFile (path : Text) : IO (Except FileFault (List UInt8)) := do
  try
    return .ok (← IO.FS.readBinFile path.render).toList
  catch e =>
    return .error (faultOf e)

/-- A reader for some paths, each of which is read once. -/
def readerFor (paths : List Text) : IO FileReader := do
  let mut found : Table (List UInt8) (Except FileFault (List UInt8)) := {}
  for path in paths do
    if let .ok octets := Text.Utf8.encodePath path then
      if !octets.contains 0 && !found.contains octets then
        found := found.insert octets (← readFile path)
  let answers := found
  return fun path => (answers.get? path).getD (.error .notFound)

/-- The paths that a run may read. -/
def pathsOf (args : List Text) : List Text :=
  match Options.parse args with
  | .run o =>
    let paths := match o.config with
      | .given p => p :: o.sources
      | .absent | .blank => o.sources
    paths.map fun p => (Path.ofText p).render
  | .help | .refused _ => []

/-- The limits of a machine with room for a thousand levels, some of which are
    taken when a configuration is read. -/
def usualLimits : Json.Limits := ⟨991, 991⟩

/-- A short account of the arguments. -/
def usage : String :=
  "usage: sendck [-h] [--json] [--config CONFIG] [--disable] [--severity \x7berror,warning\x7d] [-v] source [source ...]"

end Sendability.Command

open Sendability.Command in
/-- Checks the files named on the command line. -/
def main (args : List String) : IO UInt32 := do
  let args := args.map Sendability.Text.ofString
  let read ← readerFor (pathsOf args)
  match run usualLimits read none args with
  | .done o =>
    IO.print o.stdout.render
    IO.eprint o.stderr.render
    return UInt32.ofNat o.exit
  | .help =>
    IO.println usage
    return 0
  | .refused r =>
    IO.eprintln usage
    IO.eprintln r.line.render
    return 2
  | .aborted a =>
    IO.eprintln a.message.render
    return 1
