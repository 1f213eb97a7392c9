import AccumulatorMachine.CommandLine.Options

/-!
The commands of the command line.
-/
namespace AccumulatorMachine.CommandLine

/-- Where a program's input comes from. A file goes before a text. -/
structure InputChoice where
  text : Option String := none
  file : Option String := none
deriving DecidableEq, Repr

structure RunOptions where
  input : InputChoice
  tickMilliseconds : Nat
  stepsPerTick : Nat
  maxSteps : Option Nat
  ignoreBreakpoints : Bool
  trace : Bool
deriving DecidableEq, Repr

inductive ListingFormat where
  | text
  | json
  | source
deriving DecidableEq, Repr

inductive Command where
  | run (file : String) (options : RunOptions)
  | check (file : String)
  | dump (file : String) (format : ListingFormat)
  | debug (file : String) (input : InputChoice) (maxSteps : Nat)
deriving DecidableEq, Repr

namespace Command

/-- Every instruction is to be logged. -/
def traces : Command → Bool
  | .run _ options => options.trace
  | _ => false

/-- The files a command reads. -/
def paths : Command → List String
  | .run file options => file :: options.input.file.toList
  | .check file => [file]
  | .dump file _ => [file]
  | .debug file input _ => file :: input.file.toList

def inputSpecs : List OptionSpec :=
  [⟨"input", .text⟩, ⟨"input-file", .path⟩]

def runSpecs : List OptionSpec :=
  inputSpecs ++ [⟨"tick-ms", .number 1⟩, ⟨"steps-per-tick", .number 1⟩, ⟨"max-steps", .number 0⟩,
    ⟨"ignore-breakpoints", .flag⟩, ⟨"trace", .flag⟩]

def dumpSpecs : List OptionSpec :=
  [⟨"json", .flag⟩, ⟨"source", .flag⟩]

def debugSpecs : List OptionSpec :=
  inputSpecs ++ [⟨"max-steps", .number 0⟩]

/-- Reads the words behind a command of which two options can exclude each other, and which needs a
file. -/
def readArguments (specs : List OptionSpec) (exclusive : String × String) (words : List String) :
    Except UsageError (String × Reading) :=
  match Reading.readWords {} specs false words with
  | .error e => .error e
  | .ok r =>
    if r.has exclusive.1 && r.has exclusive.2 then .error .conflict
    else match r.file with
      | none => .error .missingFile
      | some file => .ok (file, r)

def inputChoice (r : Reading) : InputChoice :=
  ⟨r.value? "input", r.value? "input-file"⟩

def readRun (words : List String) : Except UsageError Command :=
  (readArguments runSpecs ("input", "input-file") words).map fun (file, r) => .run file {
    input := inputChoice r
    tickMilliseconds := (r.number? "tick-ms").getD 1
    stepsPerTick := (r.number? "steps-per-tick").getD 1000
    maxSteps := r.number? "max-steps"
    ignoreBreakpoints := r.has "ignore-breakpoints"
    trace := r.has "trace" }

def readCheck (words : List String) : Except UsageError Command :=
  (readArguments [] ("", "") words).map fun (file, _) => .check file

def readDump (words : List String) : Except UsageError Command :=
  (readArguments dumpSpecs ("json", "source") words).map fun (file, r) =>
    .dump file (if r.has "json" then .json else if r.has "source" then .source else .text)

def readDebug (words : List String) : Except UsageError Command :=
  (readArguments debugSpecs ("input", "input-file") words).map fun (file, r) =>
    .debug file (inputChoice r) ((r.number? "max-steps").getD 1000000)

def names : List String :=
  ["run", "check", "dump", "debug", "help"]

/-- What asking for help on a command comes to. -/
def readHelp : List String → UsageError
  | [] => .help
  | [name] => if names.contains name then .help else .unknownCommand
  | _ => .unknownCommand

/-- The words in front of any command, where only help and the version can be asked for. -/
def readNoCommand (word : String) (rest : List String) : UsageError :=
  match Shape.ofWord word with
  | .long "help" none | .short 'h' => .help
  | .long "version" none | .short 'V' => .version
  | .long "help" (some _) | .long "version" (some _) => .unwantedValue
  | .long .. | .short _ => .unknownArgument
  | .plain => .unknownCommand
  | .escape => match rest with
    | [] => .noCommand
    | name :: _ => if names.contains name then .unknownArgument else .unknownCommand

/-- Reads the words of a command line. -/
def ofWords : List String → Except UsageError Command
  | [] => .error .noCommand
  | word :: rest =>
    if word = "run" then readRun rest
    else if word = "check" then readCheck rest
    else if word = "dump" then readDump rest
    else if word = "debug" then readDebug rest
    else if word = "help" then .error (readHelp rest)
    else .error (readNoCommand word rest)

end Command

end AccumulatorMachine.CommandLine
