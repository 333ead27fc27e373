/-
  Command-line arguments.

  Arguments are options and sources. A word option may be shortened as long as
  no other option starts the same way, and its value may follow an equal sign;
  single-letter options may share a dash, with or without an equal sign after
  the first. Everything after a bare double dash is a source, and so are a
  single dash, negative numbers, and what starts with a dash but holds a blank.
  The sources must stand together; those that stand elsewhere are refused like
  unknown options. A double dash never counts as a value: attached to an option
  that takes one, it leaves the option blank. These are the conventions of argparse
  as of 3.10; later versions take an attached double dash for a value, and treat
  what is attached to a letter otherwise.

  `Options.parse` first says for every argument what it is, then takes them in
  order, so an ambiguous option is refused before anything else happens.
-/
import Sendability.Command.Path
import Sendability.Config
import Sendability.Text.Digit

namespace Sendability.Command

/-- The options. -/
inductive Flag where
  | help | json | config | disable | severity | verbose
  deriving DecidableEq, Inhabited

namespace Flag

/-- The options in order. -/
def all : List Flag := [.help, .json, .config, .disable, .severity, .verbose]

/-- An option as a word. -/
def word : Flag → String
  | .help => "--help"
  | .json => "--json"
  | .config => "--config"
  | .disable => "--disable"
  | .severity => "--severity"
  | .verbose => "--verbose"

/-- The letter of an option that has one; such options have no value. -/
def letter? : Flag → Option Char
  | .help => some 'h'
  | .verbose => some 'v'
  | .json | .config | .disable | .severity => none

/-- The option with a letter. -/
def ofLetter? (c : CodePoint) : Option Flag :=
  all.find? fun f => f.letter?.map Char.toNat = some c

/-- An option as messages name it: the letter, if any, and the word. -/
def title (f : Flag) : String :=
  match f.letter? with
  | some c => String.ofList ['-', c, '/'] ++ f.word
  | none => f.word

/-- Whether an option has a value. -/
def takesValue : Flag → Bool
  | .config | .severity => true
  | .help | .json | .disable | .verbose => false

end Flag

/-- What an option that takes a value was given. -/
inductive Setting where
  /-- The option does not occur. -/
  | absent
  /-- The option occurs with a double dash for its value. -/
  | blank
  /-- The option occurs with a value. -/
  | given (value : Text)
  deriving DecidableEq, Inhabited

/-- What a value says: a double dash says nothing. -/
def Setting.ofValue (value : Text) : Setting := if value = "--" then .blank else .given value

/-- What was asked for on the command line. -/
structure Options where
  sources : List Text := []
  json : Bool := false
  config : Setting := .absent
  disable : Bool := false
  severity : Setting := .absent
  verbose : Bool := false
  deriving DecidableEq, Inhabited

/-- Why arguments were refused. -/
inductive Refusal where
  | ambiguous (arg : Text) (flags : List Flag)
  | missingValue (flag : Flag)
  | unusedValue (flag : Flag) (value : Text)
  | badChoice (value : Text)
  | missingSources
  | unrecognized (args : List Text)
  deriving DecidableEq, Inhabited

/-- The text of a refusal. -/
def Refusal.message : Refusal → Text
  | .ambiguous arg fs =>
    "ambiguous option: " ++ arg ++ " could match " ++ ", ".intercalate (fs.map Flag.word)
  | .missingValue f => "argument " ++ f.title ++ ": expected one argument"
  | .unusedValue f v => "argument " ++ f.title ++ ": ignored explicit argument " ++ Text.quoted v
  | .badChoice v =>
    "argument " ++ Flag.severity.title ++ ": invalid choice: " ++ Text.quoted v ++
      " (choose from " ++ ", ".intercalate (severities.map Text.quoted) ++ ")"
  | .missingSources => "the following arguments are required: source"
  | .unrecognized args => "unrecognized arguments: " ++ Text.joined " " args

/-- What came of parsing arguments. -/
inductive Parsed where
  | run (o : Options)
  | help
  | refused (r : Refusal)
  deriving DecidableEq, Inhabited

/-! ## What an argument is -/

/-- What an argument is. -/
inductive Arg where
  /-- A source, or the value of an option. -/
  | plain (text : Text)
  /-- The double dash after which everything is plain. -/
  | divider
  /-- An option as a word, with the value attached to it. -/
  | word (flag : Flag) (attached : Option Text)
  /-- An option as a letter, with what is attached to it. -/
  | letter (flag : Flag) (attached : Option (List CodePoint))
  /-- An option that does not exist. -/
  | unknown (text : Text)
  deriving DecidableEq, Inhabited

/-- The dash in front of options. -/
@[match_pattern] def dash : CodePoint := 0x2d

/-- The equal sign in front of values. -/
@[match_pattern] def equal : CodePoint := 0x3d

/-- The point in a number. -/
@[match_pattern] def point : CodePoint := 0x2e

/-- Some code points, an optional part after the first equal sign apart. -/
def splitValue (cs : List CodePoint) : List CodePoint × Option Text :=
  match cs.dropWhile (· ≠ equal) with
  | [] => (cs, none)
  | _ :: value => (cs.takeWhile (· ≠ equal), some ⟨value⟩)

/-- Whether an argument that starts with a dash is a negative number: digits
    with or without a point. A line feed at the end does not count. -/
def isNegativeNumber : List CodePoint → Bool
  | dash :: ds =>
    let ds := if ds.getLast? = some '\n'.toNat then ds.dropLast else ds
    let whole := ds.takeWhile Text.isDecimalDigit
    match ds.dropWhile Text.isDecimalDigit with
    | [] => !whole.isEmpty
    | point :: frac => !frac.isEmpty && frac.all Text.isDecimalDigit
    | _ => false
  | _ => false

/-- The options that a shortened word can mean. -/
def Flag.startingWith (start : List CodePoint) : List Flag :=
  Flag.all.filter fun f => start.isPrefixOf (Text.ofString f.word).points

/-- What is attached to a letter: an equal sign in front of it does not count. -/
def attachedTo : List CodePoint → Option (List CodePoint)
  | [] => none
  | equal :: cs => some cs
  | cs => some cs

/-- An argument that is no option although it starts with a dash. -/
def Arg.ofDashed (arg : Text) : Arg :=
  if isNegativeNumber arg.points || arg.points.contains ' '.toNat then .plain arg
  else .unknown arg

/-- What an argument before any double dash is. -/
def Arg.classify (arg : Text) : Except Refusal Arg :=
  match arg.points with
  | dash :: dash :: _ =>
    let (start, value) := splitValue arg.points
    match Flag.startingWith start with
    | [f] => .ok (.word f value)
    | [] => .ok (.ofDashed arg)
    | several => .error (.ambiguous arg several)
  | dash :: c :: behind =>
    match Flag.ofLetter? c with
    | some f => .ok (.letter f (attachedTo behind))
    | none => .ok (.ofDashed arg)
  | _ => .ok (.plain arg)

/-- What each of some arguments is. -/
def Arg.classifyAll : List Text → Except Refusal (List Arg)
  | [] => .ok []
  | a :: rest =>
    if a = "--" then .ok (.divider :: rest.map .plain)
    else do
      let first ← Arg.classify a
      let others ← Arg.classifyAll rest
      return first :: others

/-! ## Taking arguments in order -/

/-- The options of letters that share a dash: `flag` and those attached to it.
    What is attached has to consist of letters of options, one at least. -/
def cluster (flag : Flag) : List CodePoint → Except Refusal (List Flag)
  | [] => .error (.unusedValue flag "")
  | c :: rest =>
    match Flag.ofLetter? c, rest with
    | none, _ => .error (.unusedValue flag ⟨c :: rest⟩)
    | some next, [] => .ok [flag, next]
    | some next, _ :: _ => do
      let flags ← cluster next rest
      return flag :: flags

/-- The options of a letter and what is attached to it. -/
def lettersOf (flag : Flag) : Option (List CodePoint) → Except Refusal (List Flag)
  | none => .ok [flag]
  | some cs => cluster flag cs

/-- How far taking arguments has come. -/
structure Taking where
  options : Options := {}
  sourcesSeen : Bool := false
  extras : List Text := []
  deriving Inhabited

/-- Carries out one option; asking for help ends everything. -/
def Taking.flag (t : Taking) (flag : Flag) (value : Text) : Except Parsed Taking :=
  let set (o : Options) : Except Parsed Taking := .ok { t with options := o }
  let o := t.options
  match flag with
  | .help => .error .help
  | .json => set { o with json := true }
  | .disable => set { o with disable := true }
  | .verbose => set { o with verbose := true }
  | .config => set { o with config := .ofValue value }
  | .severity =>
    match Setting.ofValue value with
    | .given v =>
      if v ∈ severities then set { o with severity := .given v }
      else .error (.refused (.badChoice v))
    | other => set { o with severity := other }

/-- Carries out some options that have no value. -/
def Taking.flags (t : Taking) : List Flag → Except Parsed Taking
  | [] => .ok t
  | f :: rest => do
    let t ← t.flag f ""
    t.flags rest

/-- The text of an argument that can be part of a run of sources. -/
def Arg.plain? : Arg → Option Text
  | .plain s => some s
  | .divider => some "--"
  | .word .. | .letter .. | .unknown _ => none

/-- Whether a run of arguments holds a source. -/
def holdsSource (run : List Arg) : Bool := run.any fun a => a matches .plain _

/-- The sources of a run of arguments: all but the first double dash. -/
def sourcesOf (run : List Arg) : List Text := (run.filterMap Arg.plain?).erase "--"

/-- Takes a run of plain arguments: the first run with a source holds the
    sources, any other is left over. -/
def Taking.plain (t : Taking) (run : List Arg) : Taking :=
  if !t.sourcesSeen && holdsSource run then
    { t with options := { t.options with sources := sourcesOf run }, sourcesSeen := true }
  else { t with extras := t.extras ++ run.filterMap Arg.plain? }

/-- Takes arguments in order; `fuel` bounds their number. -/
def Taking.all : Nat → Taking → List Arg → Except Parsed Taking
  | 0, t, _ => .ok t
  | _ + 1, t, [] => .ok t
  | fuel + 1, t, a :: rest =>
    match a with
    | .unknown s => Taking.all fuel { t with extras := t.extras ++ [s] } rest
    | .letter f attached =>
      match lettersOf f attached with
      | .error r => .error (.refused r)
      | .ok fs => do
        let t ← t.flags fs
        Taking.all fuel t rest
    | .word f attached =>
      match f.takesValue, attached, rest with
      | true, some value, _ => do
        let t ← t.flag f value
        Taking.all fuel t rest
      | true, none, .plain value :: rest => do
        let t ← t.flag f value
        Taking.all fuel t rest
      | true, none, _ => .error (.refused (.missingValue f))
      | false, none, _ => do
        let t ← t.flag f ""
        Taking.all fuel t rest
      | false, some value, _ => .error (.refused (.unusedValue f value))
    | .plain _ | .divider =>
      let run := (a :: rest).takeWhile (·.plain?.isSome)
      Taking.all fuel (t.plain run) ((a :: rest).dropWhile (·.plain?.isSome))

/-- What some arguments ask for. -/
def Options.parse (args : List Text) : Parsed :=
  match Arg.classifyAll args with
  | .error r => .refused r
  | .ok classified =>
    match Taking.all (args.length + 1) {} classified with
    | .error p => p
    | .ok t =>
      if !t.sourcesSeen then .refused .missingSources
      else if t.extras.isEmpty then .run t.options
      else .refused (.unrecognized t.extras)

end Sendability.Command
