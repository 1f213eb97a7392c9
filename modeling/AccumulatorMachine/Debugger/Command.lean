import AccumulatorMachine.Text.Blank
import AccumulatorMachine.Text.Decimal

/-!
The commands of the debugger, a line each.
-/
namespace AccumulatorMachine

inductive DebugCommand where
  | step (count : Nat)
  | proceed
  | status
  | list
  | reset
  | quit
  | help
deriving DecidableEq, Repr

inductive DebugCommandError where
  | badCount (text : String)
  | unknown (word : String)
  | unexpected (word : String)
deriving DecidableEq, Repr

def DebugCommandError.message : DebugCommandError → String
  | .badCount text => s!"Invalid step count '{text}'"
  | .unknown word => s!"Unknown command '{word}', try 'help'"
  | .unexpected word => s!"Unexpected argument '{word}'"

namespace DebugCommand

/-- The commands that are one word. -/
def ofWord? (word : String) : Option DebugCommand :=
  if ["c", "continue"].contains word then some .proceed
  else if ["st", "status"].contains word then some .status
  else if ["l", "list"].contains word then some .list
  else if ["r", "reset"].contains word then some .reset
  else if ["q", "quit", "exit"].contains word then some .quit
  else if ["h", "help", "?"].contains word then some .help
  else none

/-- Nothing may follow a command. -/
def finish (command : DebugCommand) : List String → Except DebugCommandError DebugCommand
  | [] => .ok command
  | word :: _ => .error (.unexpected word)

/-- Reads the words of a command. No words at all make one step. -/
def ofWords (words : List String) : Except DebugCommandError DebugCommand :=
  match words with
  | [] => .ok (.step 1)
  | word :: rest =>
    if ["s", "step"].contains word then match rest with
      | [] => .ok (.step 1)
      | count :: extra => match Decimal.unsigned? count.toList with
        | some n => finish (.step n) extra
        | none => .error (.badCount count)
    else match ofWord? word with
      | some command => finish command rest
      | none => .error (.unknown word)

def ofLine (line : String) : Except DebugCommandError DebugCommand :=
  ofWords (Text.words line)

end DebugCommand

end AccumulatorMachine
