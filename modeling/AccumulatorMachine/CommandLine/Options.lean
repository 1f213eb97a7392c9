import AccumulatorMachine.Text.Decimal

/-!
Reading the words behind a command: one file, and options by name. The value of an option stands in
the next word or behind `=`. It is examined when the next option or file comes, or at the end, so a
word that nothing can stand for is noticed before a bad value in front of it.
-/
namespace AccumulatorMachine.CommandLine

/-- Why a command line is not carried out. -/
inductive UsageError where
  | noCommand
  | unknownCommand
  | unknownArgument
  /-- A file or an option that needs a value has none. -/
  | missingValue
  /-- A value is given to an option that takes none. -/
  | unwantedValue
  | badNumber
  /-- An option is repeated, or given beside another that it excludes. -/
  | conflict
  | missingFile
  | help
  | version
deriving DecidableEq, Repr

def UsageError.message : UsageError → String
  | .noCommand => "a command is required: run, check, dump or debug"
  | .unknownCommand => "unrecognized command"
  | .unknownArgument => "unexpected argument"
  | .missingValue => "a value is required"
  | .unwantedValue => "unexpected value for an option that takes none"
  | .badNumber => "invalid number"
  | .conflict => "an option is repeated or excluded by another"
  | .missingFile => "a file is required"
  | .help => "commands: run, check, dump, debug"
  | .version => "version"

/-- What an option takes. -/
inductive OptionKind where
  | flag
  | text
  /-- The name of a file, which must not be empty. -/
  | path
  /-- An unsigned word that is no less than a bound. -/
  | number (least : Nat)
deriving DecidableEq, Repr

structure OptionSpec where
  name : String
  kind : OptionKind
deriving DecidableEq, Repr

/-- How a word looks. -/
inductive Shape where
  /-- `--`, behind which no word is an option. -/
  | escape
  /-- `--name` or `--name=value`. -/
  | long (name : String) (value : Option String)
  /-- `-` and letters, of which the first one decides. -/
  | short (letter : Char)
  | plain
deriving DecidableEq, Repr

def Shape.ofWord (word : String) : Shape :=
  match word.toList with
  | '-' :: '-' :: [] => .escape
  | '-' :: '-' :: rest =>
    let name := rest.takeWhile (· != '=')
    .long (String.ofList name)
      (if name.length < rest.length then some (String.ofList (rest.drop (name.length + 1)))
      else none)
  | '-' :: letter :: _ => .short letter
  | _ => .plain

/-- A word that is read but not yet examined. -/
inductive Pending where
  | nothing
  | file (path : String)
  | option (spec : OptionSpec) (value : Option String)
deriving DecidableEq, Repr

/-- What is known of the words read so far. -/
structure Reading where
  file : Option String := none
  /-- The options with their values, last first. A flag has the empty value. -/
  options : List (String × String) := []
  pending : Pending := .nothing
  /-- The file has been seen, examined or not. -/
  fileSeen : Bool := false
deriving DecidableEq, Repr

namespace Reading

def value? (r : Reading) (name : String) : Option String :=
  (r.options.find? fun given => given.1 == name).map Prod.snd

def has (r : Reading) (name : String) : Bool :=
  (r.value? name).isSome

def number? (r : Reading) (name : String) : Option Nat :=
  (r.value? name).bind fun value => Decimal.unsigned? value.toList

/-- Whether a value is one that an option of the kind can have. -/
def examine (kind : OptionKind) (value : String) : Except UsageError Unit :=
  match kind with
  | .flag | .text => .ok ()
  | .path => if value.isEmpty then .error .missingValue else .ok ()
  | .number least => match Decimal.unsigned? value.toList with
    | some n => if least ≤ n then .ok () else .error .badNumber
    | none => .error .badNumber

/-- Enters an option, which must be new. -/
def enter (r : Reading) (spec : OptionSpec) (value : String) : Except UsageError Reading :=
  if r.has spec.name then .error .conflict
  else (examine spec.kind value).map fun _ =>
    { r with options := (spec.name, value) :: r.options }

/-- Examines what is pending. -/
def settle (r : Reading) : Except UsageError Reading :=
  let settled := { r with pending := .nothing }
  match r.pending with
  | .nothing => .ok settled
  | .file path => (examine .path path).map fun _ => { settled with file := some path }
  | .option _ none => .error .missingValue
  | .option spec (some value) => settled.enter spec value

/-- Takes a word that is no option. -/
def takeFile (r : Reading) (word : String) : Except UsageError Reading :=
  if r.fileSeen then .error .unknownArgument
  else r.settle.map fun r => { r with pending := .file word, fileSeen := true }

def takeLong (r : Reading) (specs : List OptionSpec) (name : String) (value : Option String) :
    Except UsageError Reading :=
  match specs.find? fun spec => spec.name == name with
  | none => .error .unknownArgument
  | some spec => match spec.kind, value with
    | .flag, some _ => .error .unwantedValue
    | .flag, none => r.settle.bind fun r => r.enter spec ""
    | _, some value => r.settle.bind fun r => r.enter spec value
    | _, none => r.settle.map fun r => { r with pending := .option spec none }

/-- Takes a word in front of `--`. -/
def takeWord (r : Reading) (specs : List OptionSpec) (word : String) : Except UsageError Reading :=
  match Shape.ofWord word with
  | .long "help" none => r.settle.bind fun _ => .error .help
  | .long "help" (some _) => .error .unwantedValue
  | .long name value => r.takeLong specs name value
  | .short 'h' => r.settle.bind fun _ => .error .help
  | .short _ => .error .unknownArgument
  | .escape | .plain => match r.pending with
    | .option spec none => .ok { r with pending := .option spec (some word) }
    | _ => r.takeFile word

/-- Reads all words. -/
def readWords (r : Reading) (specs : List OptionSpec) : (escaped : Bool) → List String →
    Except UsageError Reading
  | _, [] => r.settle
  | true, word :: rest => match r.takeFile word with
    | .error e => .error e
    | .ok next => next.readWords specs true rest
  | false, word :: rest =>
    if Shape.ofWord word = .escape then r.readWords specs true rest
    else match r.takeWord specs word with
      | .error e => .error e
      | .ok next => next.readWords specs false rest

end Reading

end AccumulatorMachine.CommandLine
