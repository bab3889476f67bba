import Chronicle.Maintenance.Cleaning
import Chronicle.Maintenance.Listing
import Chronicle.Maintenance.Verification

/-!
# Command line

The commands are `list`, `verify` and `clean`, each with a directory and options of its own. An option
may come before or after the directory, at most once. A value follows its option or is joined to it by
an equals sign; a value that follows may not look like an option. After two dashes nothing is an
option. Anything else is a wrong use, which has an exit code of its own.
-/

namespace Chronicle

/-- What is asked for. -/
inductive Command where
  /-- List the events of a cache. -/
  | list (directory stem : String) (json : Bool) (limit : Option Nat)
  /-- Verify a cache. -/
  | verify (directory stem : String) (strict json : Bool)
  /-- Clean a cache. -/
  | clean (directory stem : String) (corrupt : Bool)
  deriving DecidableEq, Repr

namespace CommandLine

/-- What the arguments of a command hold so far. -/
structure Arguments where
  /-- The directory. -/
  directory : Option String := none
  /-- The options that stand alone. -/
  flags : List String := []
  /-- The options with a value. -/
  values : List (String × String) := []

/-- Adds the directory, once. -/
def Arguments.addDirectory (a : Arguments) (directory : String) : Option Arguments :=
  if a.directory.isSome then none else some { a with directory := some directory }

/-- Adds an option that stands alone, once. -/
def Arguments.addFlag (a : Arguments) (flag : String) : Option Arguments :=
  if a.flags.contains flag then none else some { a with flags := flag :: a.flags }

/-- Adds an option with a value, once. -/
def Arguments.addValue (a : Arguments) (option value : String) : Option Arguments :=
  if (a.values.lookup option).isSome then none
  else some { a with values := (option, value) :: a.values }

/-- The value of an option. -/
def Arguments.value? (a : Arguments) (option : String) : Option String := a.values.lookup option

/-- Whether an argument looks like an option. A single dash does not. -/
def looksLikeOption (argument : String) : Bool :=
  match argument.toList with
  | '-' :: _ :: _ => true
  | _ => false

/-- The halves of an argument around its first equals sign. -/
def splitValue (argument : String) : String × Option String :=
  match argument.toList.dropWhile (· != '=') with
  | [] => (argument, none)
  | _ :: value =>
    (String.ofList (argument.toList.takeWhile (· != '=')), some (String.ofList value))

/-- The options that a command takes. -/
structure Options where
  /-- Those that stand alone. -/
  flags : List String
  /-- Those with a value. -/
  valued : List String

/-- Reads arguments; after two dashes they are all directories. -/
def readDirectories (a : Arguments) : List String → Option Arguments
  | [] => some a
  | argument :: rest => (a.addDirectory argument).bind (readDirectories · rest)

/-- Reads the arguments of a command. -/
def readArguments (options : Options) (a : Arguments) : List String → Option Arguments
  | [] => some a
  | argument :: rest =>
    if argument = "--" then readDirectories a rest
    else if looksLikeOption argument then
      match splitValue argument with
      | (option, some value) =>
        if options.valued.contains option then
          (a.addValue option value).bind (readArguments options · rest)
        else none
      | (option, none) =>
        if options.flags.contains option then (a.addFlag option).bind (readArguments options · rest)
        else if options.valued.contains option then
          match rest with
          | value :: rest =>
            if looksLikeOption value then none
            else (a.addValue option value).bind (readArguments options · rest)
          | [] => none
        else none
    else (a.addDirectory argument).bind (readArguments options · rest)

/-- A limit on the number of events: a number of 64 bits, if one is given. -/
def limitOf : Option String → Option (Option Nat)
  | none => some none
  | some text =>
    match Numeral.parse Numeral.wordLimit text.toList with
    | .ok n => some (some n)
    | .error _ => none

/-- The stem that arguments give. -/
def Arguments.stem (a : Arguments) : String := (a.value? "--stem").getD Cache.defaultStem

/-- The command that some arguments ask for, none if they are used wrongly. -/
def parse : List String → Option Command
  | "list" :: rest => do
    let a ← readArguments ⟨["--json"], ["--max-events", "--stem"]⟩ {} rest
    let directory ← a.directory
    let limit ← limitOf (a.value? "--max-events")
    return .list directory a.stem (a.flags.contains "--json") limit
  | "verify" :: rest => do
    let a ← readArguments ⟨["--strict", "--json"], ["--stem"]⟩ {} rest
    let directory ← a.directory
    return .verify directory a.stem (a.flags.contains "--strict") (a.flags.contains "--json")
  | "clean" :: rest => do
    let a ← readArguments ⟨["--corrupt"], ["--stem"]⟩ {} rest
    let directory ← a.directory
    return .clean directory a.stem (a.flags.contains "--corrupt")
  | _ => none

/-- The exit code of a wrong use. -/
def usageCode : Nat := 2

/-- How the program is used. -/
def usage : String :=
  "Usage: eventlog list [--json] [--max-events N] [--stem STEM] DIRECTORY\n" ++
  "       eventlog verify [--strict] [--json] [--stem STEM] DIRECTORY\n" ++
  "       eventlog clean [--corrupt] [--stem STEM] DIRECTORY\n"

/-- Carries out a command on a file system. -/
def execute (fs : FileSystem) : Command → FileSystem × Maintenance.Report
  | .list directory stem json limit => (fs, Maintenance.list fs directory stem json limit)
  | .verify directory stem strict json => (fs, Maintenance.verify fs directory stem strict json)
  | .clean directory stem corrupt => Maintenance.clean fs directory stem corrupt

/-- Carries out what some arguments ask for. -/
def run (fs : FileSystem) (arguments : List String) : FileSystem × Maintenance.Report :=
  match parse arguments with
  | some command => execute fs command
  | none => (fs, { output := "", errors := usage, code := usageCode })

end CommandLine

end Chronicle
