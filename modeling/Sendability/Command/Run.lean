/-
  The command line as a function.

  `Command.run` takes the files through a reader and gives the exit code and
  what is written to the two streams. Every source is read, parsed and
  checked; what goes wrong on the way becomes a diagnostic of its own phase.
  The exit code is one if any diagnostic is an error. Progress reports go
  before all diagnostics, since those are written at the end.

  Some failures are no diagnostics but end the run: a file that is not UTF-8, a
  path that cannot be encoded or holds a null character, a configuration path
  left blank, and a configuration with a number that is too long to read, with
  too many levels to read, or with a wrong value of too many levels to show. How
  many levels there can be is up to the machine: every run is given `Limits`.
-/
import Sendability.Analysis.Checker
import Sendability.Command.Files
import Sendability.Command.Options
import Sendability.Json.Reader
import Sendability.Source.Program

namespace Sendability.Command

/-- What a run leaves behind. -/
structure Outcome where
  exit : Nat
  stdout : Text
  stderr : Text
  deriving DecidableEq, Inhabited

/-- What ends a run without an outcome. -/
inductive Abort where
  /-- A file is not UTF-8. -/
  | undecodable (f : Text.Utf8.Fault)
  /-- A path has no form in octets. -/
  | unencodable (u : Text.Utf8.Unencodable)
  /-- A path holds a null character. -/
  | nullInPath
  /-- The path of the configuration was left blank. -/
  | blankPath
  /-- A whole number in a configuration has more digits than are read. -/
  | longNumber (digits : Nat)
  /-- An array or object in a configuration stands deeper than is read. -/
  | deepDocument (c : Json.Container)
  /-- A wrong value in a configuration is nested deeper than is shown. -/
  | deepValue
  deriving DecidableEq, Inhabited

/-- The text of what ends a run. -/
def Abort.message : Abort → Text
  | .undecodable f => f.message
  | .unencodable u => u.message
  | .nullInPath => "embedded null byte"
  | .blankPath => "'list' object has no attribute 'read_text'"
  | .longNumber n =>
    "Exceeds the limit (" ++ Text.ofInt Json.maxDigits ++
      " digits) for integer string conversion: value has " ++ Text.ofInt n ++
      " digits; use sys.set_int_max_str_digits() to increase the limit"
  | .deepDocument .array =>
    "maximum recursion depth exceeded while decoding a JSON array from a unicode string"
  | .deepDocument .object =>
    "maximum recursion depth exceeded while decoding a JSON object from a unicode string"
  | .deepValue => "maximum recursion depth exceeded while getting the repr of an object"

/-- How a run ends: with an outcome or without, unless arguments are refused or
    help is asked for. -/
inductive Ending where
  | done (o : Outcome)
  | help
  | refused (r : Refusal)
  | aborted (a : Abort)
  deriving DecidableEq, Inhabited

/-- The line that tells why arguments were refused. -/
def Refusal.line (r : Refusal) : Text := "sendck: error: " ++ r.message

/-! ## Diagnostics in JSON -/

/-- An optional number. -/
def numberJson : Option Int → Json
  | some i => .int i
  | none => .null

/-- An optional text. -/
def textJson : Option Text → Json
  | some s => .str s
  | none => .null

/-- A note. -/
def noteJson (n : Note) : Json :=
  Json.object [("message", .str n.message), ("line", numberJson n.span.line),
    ("column", numberJson n.span.column)]

/-- A diagnostic for the source `path`; a span without a file is taken to lie in
    it. -/
def diagnosticJson (path : Text) (d : Diagnostic) : Json :=
  Json.object [("phase", textJson d.phase), ("code", textJson d.code),
    ("message", .str d.message), ("severity", .str d.severity),
    ("file", .str ((Span.namedFile d.span.file).getD path)),
    ("line", numberJson d.span.line), ("column", numberJson d.span.column),
    ("notes", .arr (d.notes.map noteJson))]

/-- What is written about the diagnostics of a run, each with its source: a JSON
    document on standard output, or lines on standard error. -/
def report (json : Bool) (exit : Nat) (events : List Event) (verbose : Bool)
    (results : List (Text × Diagnostic)) : Outcome :=
  let log := Text.concat ((events.filter fun e => verbose || e.isError).map (·.line ++ "\n"))
  if json then
    let doc := Json.object [("exit_code", .int exit),
      ("diagnostics", .arr (results.map fun (path, d) => diagnosticJson path d))]
    ⟨exit, doc.write ++ "\n", log⟩
  else
    ⟨exit, "", log ++ Text.concat (results.map fun (path, d) => d.render path ++ "\n")⟩

/-! ## Files -/

/-- The octets of the file at a path. -/
def readOctets (read : FileReader) (path : Text) :
    Except Abort (Except FileFault (List UInt8)) :=
  match Text.Utf8.encodePath path with
  | .error u => .error (.unencodable u)
  | .ok octets => if octets.contains 0 then .error .nullInPath else .ok (read octets)

/-- The text in some octets. -/
def readText (octets : List UInt8) : Except Abort (List Char) :=
  (Text.Utf8.readText octets).mapError .undecodable

/-! ## Sources -/

/-- The diagnostics and progress reports of one source. -/
structure SourceResult where
  diagnostics : List Diagnostic
  events : List Event
  deriving DecidableEq, Inhabited

/-- The diagnostics of checking one function; a function that cannot be checked
    has one that says so. -/
def functionDiagnostics (f : Func) : Except CheckFault CheckResult → List Diagnostic
  | .ok r => r.diagnostics
  | .error (.malformed m) =>
    [{ message := "in function '" ++ f.name ++ "': " ++ m.message, phase := some "ir"
       span := m.span }]
  | .error (.obstacle o) => [{ message := o.message, phase := some checkPhase, span := f.loc }]

/-- Checks the functions of a program by what is written on their calls. -/
def checkProgram (config : Config) (bound : Option Int) (p : Program) : SourceResult :=
  let results := p.functions.map fun f =>
    (f, (f.check config (Classifier.asWritten (σ := Unit)) () bound).map Prod.fst)
  { diagnostics := results.flatMap fun (f, r) => functionDiagnostics f r
    events := results.flatMap fun (f, r) => f.events r }

/-- Reads, parses and checks one source. -/
def checkSource (read : FileReader) (config : Config) (bound : Option Int) (path : Text) :
    Except Abort SourceResult := do
  let start : List Event := [.reading path]
  match ← readOctets read path with
  | .error f =>
    let d : Diagnostic :=
      { message := "cannot read '" ++ path ++ "': " ++ f.message path, phase := some "parser"
        span := { file := some path } }
    return ⟨[d], start⟩
  | .ok octets =>
    let text ← readText octets
    match Program.parse (.ofChars text) (some path) with
    | .error f =>
      let d : Diagnostic :=
        { message := f.message, phase := some "parser", span := f.span (some path) }
      return ⟨[d], start⟩
    | .ok p =>
      let r := checkProgram config bound p
      return { r with events := start ++ r.events }

/-- Checks some sources in order. -/
def checkSources (read : FileReader) (config : Config) (bound : Option Int) :
    List Text → Except Abort (List (Text × Diagnostic) × List Event)
  | [] => .ok ([], [])
  | path :: rest => do
    let r ← checkSource read config bound path
    let (results, events) ← checkSources read config bound rest
    return (r.diagnostics.map (path, ·) ++ results, r.events ++ events)

/-! ## Configuration -/

/-- The configuration that a text read from `path` describes. -/
def configOfText (limits : Json.Limits) (path : Text) (text : List Char) :
    Except Abort (Except ConfigFault Config) :=
  match Json.parse limits.read text with
  | .ok doc =>
    match Config.ofJson doc with
    | .ok c => .ok (.ok c)
    | .error f => if limits.shown < f.nesting then .error .deepValue else .ok (.error f)
  | .error (.invalid p pos) => .ok (.error (.invalidJson path (p.messageAt text pos)))
  | .error (.longNumber n) => .error (.longNumber n)
  | .error (.tooDeep c) => .error (.deepDocument c)

/-- The configuration in a file. -/
def loadConfig (limits : Json.Limits) (read : FileReader) (path : Text) :
    Except Abort (Except ConfigFault Config) := do
  match ← readOctets read path with
  | .error f => return .error (.unreadable path (f.message path))
  | .ok octets => configOfText limits path (← readText octets)

/-- The configuration that some options start from. -/
def Options.base (limits : Json.Limits) (read : FileReader) (o : Options) :
    Except Abort (Except ConfigFault Config) :=
  match o.config with
  | .absent => .ok (.ok {})
  | .blank => .error .blankPath
  | .given p => loadConfig limits read (Path.ofText p).render

/-- A configuration with the switch and the severity of some options. A blank
    severity is none of the known ones, and has no levels to show. -/
def Options.adjust (o : Options) (c : Config) : Except ConfigFault Config :=
  let enabled := c.enabled && !o.disable
  match o.severity with
  | .absent => .ok { c with enabled }
  | .given severity => .ok { enabled, severity }
  | .blank => .error (.badSeverity (.arr []))

/-- The configuration that some options ask for. -/
def Options.resolve (limits : Json.Limits) (read : FileReader) (o : Options) :
    Except Abort (Except ConfigFault Config) := do
  return (← o.base limits read).bind o.adjust

/-- The name shown for a configuration that comes from no file. -/
def noPath : Text := "None"

/-- The path shown for the configuration of some options. -/
def Options.configPath (o : Options) : Text :=
  match o.config with
  | .given p => (Path.ofText p).render
  | .absent | .blank => noPath

/-- The diagnostic of a configuration that was refused. -/
def configDiagnostic (path : Text) (f : ConfigFault) : Diagnostic :=
  { message := f.message, phase := some "config", span := { file := some path } }

/-! ## Runs -/

/-- Carries out what some options ask for. -/
def execute (limits : Json.Limits) (read : FileReader) (bound : Option Int) (o : Options) :
    Except Abort Outcome := do
  match ← o.resolve limits read with
  | .error f =>
    let path := o.configPath
    return report o.json 1 [] o.verbose [(path, configDiagnostic path f)]
  | .ok config =>
    let sources := o.sources.map fun s => (Path.ofText s).render
    let (results, events) ← checkSources read config bound sources
    let exit := if Diagnostic.anyError (results.map Prod.snd) then 1 else 0
    return report o.json exit events o.verbose results

/-- The command line: from arguments and files to what a run leaves behind, on a
    machine with some limits. A bound given here limits the evaluations of every
    analysis. -/
def run (limits : Json.Limits) (read : FileReader) (bound : Option Int) (args : List Text) :
    Ending :=
  match Options.parse args with
  | .help => .help
  | .refused r => .refused r
  | .run o =>
    match execute limits read bound o with
    | .ok outcome => .done outcome
    | .error a => .aborted a

end Sendability.Command
