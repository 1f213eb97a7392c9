import AccumulatorMachine.Assembly
import AccumulatorMachine.CommandLine.Command
import AccumulatorMachine.Debugger.Session
import AccumulatorMachine.Host
import AccumulatorMachine.Listing.Json

/-!
What the commands do. A command becomes a job when its files are read; a job that has something left
to do is run by ticks, or converses.
-/
namespace AccumulatorMachine.CommandLine

/-- The files there are: their bytes by their names. -/
abbrev Files := String → Option (List UInt8)

inductive LoadError where
  | unreadable (path : String)
  | unreadableInput (path : String)
  /-- The source in a file has an error, at a place if there is one. -/
  | source (path : String) (place : Option Source.Location) (error : AssemblyError)
deriving DecidableEq

def LoadError.message : LoadError → String
  | .unreadable path => "Failed to read " ++ path
  | .unreadableInput path => "Failed to read input file " ++ path
  | .source path (some place) error => path ++ ":" ++ place.text ++ ": " ++ error.message
  | .source path none error => path ++ ": " ++ error.message

/-- The text of a file, if it exists and is UTF-8. -/
def readText? (files : Files) (path : String) : Option String :=
  (files path).bind fun bytes => (Utf8.decode bytes).toOption

/-- Reads and assembles a source file. -/
def loadProgram (files : Files) (path : String) : Except LoadError Program :=
  match readText? files path with
  | none => .error (.unreadable path)
  | some source => (assemble source).mapError fun e => .source path (e.location? source) e

def loadInput (files : Files) (choice : InputChoice) : Except LoadError Input :=
  match choice.file with
  | some path => match readText? files path with
    | none => .error (.unreadableInput path)
    | some text => .ok (.ofString text)
  | none => .ok (.ofString (choice.text.getD ""))

/-- A program as `dump` prints it. -/
def dumpText (p : Program) (format : ListingFormat) : String :=
  let listing := Listing.ofProgram p
  match format with
  | .text => listing.text
  | .json => listing.jsonText ++ "\n"
  | .source => listing.source ++ "\n"

/-- How a whole call ends. -/
structure Outcome where
  status : Nat
  out : String
  err : String
deriving DecidableEq, Repr

def failure (message : String) : Outcome :=
  ⟨1, "", "Error: " ++ message ++ "\n"⟩

inductive Job where
  | done (outcome : Outcome)
  | run (host : Host) (tickMilliseconds : Nat)
  | debug (debugger : Debugger)

def RunOptions.config (options : RunOptions) : RunConfig where
  trace := options.trace
  stopAtBreakpoints := !options.ignoreBreakpoints
  stepLimit := options.maxSteps
  stepsPerTick := options.stepsPerTick

/-- Reads a command's files. -/
def Command.load (files : Files) : Command → Except LoadError Job
  | .run file options =>
    (loadProgram files file).bind fun program =>
      (loadInput files options.input).map fun input =>
        match Host.start { program, input } options.config with
        | .error e => .done (failure e.message)
        | .ok host => .run host options.tickMilliseconds
  | .check file => (loadProgram files file).map fun program =>
      .done ⟨0, file ++ s!": ok ({program.size} instructions, {program.tags.size} tags)\n", ""⟩
  | .dump file format => (loadProgram files file).map fun program =>
      .done ⟨0, dumpText program format, ""⟩
  | .debug file choice maxSteps =>
    (loadProgram files file).bind fun program =>
      (loadInput files choice).map fun input => .debug (.start program input maxSteps)

def versionLine : String := "alpha-lang 0.1.0\n"

/-- The outcome of a command line that is not carried out. -/
def UsageError.outcome : UsageError → Outcome
  | .help => ⟨0, UsageError.help.message ++ "\n", ""⟩
  | .version => ⟨0, versionLine, ""⟩
  | e => ⟨2, "", "error: " ++ e.message ++ "\n"⟩

/-- The job that the words of a command line ask for. -/
def Job.ofWords (files : Files) (words : List String) : Job :=
  match Command.ofWords words with
  | .error e => .done e.outcome
  | .ok command => match command.load files with
    | .error e => .done (failure e.message)
    | .ok job => job

/-- The line on a run that ended early. -/
def stopLine : Halt → String
  | .stepLimit => "Stopped: step limit reached\n"
  | .paused => "Stopped: interrupted\n"
  | _ => ""

/-- The outcome of a job on the bytes of its input, if it comes about within the given number of
ticks. -/
def Job.outcome? (ticks : Nat) (bytes : List UInt8) : Job → Option Outcome
  | .done outcome => some outcome
  | .run host _ => match host.run ticks with
    | .error e => some (failure e.message)
    | .ok (none, _) => none
    | .ok (some halt, ended) => some ⟨0, ended.printed,
        String.join (ended.reported.toList.map Host.breakpointLine) ++ stopLine halt⟩
  | .debug debugger =>
    let transcript := debugger.session bytes
    match transcript.failure with
    | none => some ⟨0, transcript.text, ""⟩
    | some e => some { failure e.message with out := transcript.text }

end AccumulatorMachine.CommandLine
