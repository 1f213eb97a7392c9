import AccumulatorMachine.Debugger.Command
import AccumulatorMachine.Listing.Basic
import AccumulatorMachine.Runner
import AccumulatorMachine.Text.Utf8

/-!
Debugging sessions: a conversation that answers one command line after the other.
-/
namespace AccumulatorMachine

structure Debugger where
  runner : Runner
  listing : Listing
  /-- The number of steps that running on may take. -/
  maxSteps : Nat

/-- Why a session breaks off. -/
inductive SessionError where
  | text (fault : Utf8.Fault)
  | run (error : RunError)
deriving DecidableEq

def SessionError.message : SessionError → String
  | .text fault => fault.message
  | .run error => error.message

namespace Debugger

def start (program : Program) (input : Input) (maxSteps : Nat) : Debugger where
  runner := { machine := { program, input } }
  listing := .ofProgram program
  maxSteps := maxSteps

def banner (d : Debugger) : String :=
  s!"{d.listing.entries.length} instructions loaded, type 'help' for commands\n"

def prompt : String := "(alpha) "

def helpText : String :=
  "step [n]   execute n instructions (default 1)\n" ++
  "continue   run until a breakpoint or the end\n" ++
  "status     show accumulator, stack and index\n" ++
  "list       show the program with the current position\n" ++
  "reset      rewind the program and its input\n" ++
  "quit       leave the debugger\n"

/-- The line on the state of a machine. -/
def statusLine (r : Runner) : String :=
  r.state.text ++ (if r.isFinished then " (finished)" else "") ++ "\n"

/-- Takes away the output; there is a line on it if there was any. -/
def drain (r : Runner) : String × Runner :=
  let taken := r.takeOutput
  (if taken.1.isEmpty then "" else "Output: " ++ taken.1 ++ "\n", taken.2)

/-- Makes up to `count` steps, not beyond the end of the program, adding a line to `written` for each
breakpoint. -/
def stepMany (r : Runner) (written : String) : (count : Nat) → Except RunError (String × Runner)
  | 0 => .ok (written, r)
  | count + 1 =>
    if r.isFinished then .ok (written, r)
    else match r.step with
      | (.error e, _) => .error e
      | (.ok done, next) =>
        stepMany next
          (if done.breakpoint then written ++ s!"Breakpoint at {done.index}\n" else written) count

def haltLine (maxSteps : Nat) : Option Halt → String
  | some .finished => "Program finished\n"
  | some (.breakpoint state) => "Breakpoint: " ++ state.text ++ "\n"
  | some .stepLimit | some .paused | none => s!"Stopped after {maxSteps} steps\n"

/-- Carries out a command, and returns what it writes. -/
def perform (d : Debugger) : DebugCommand → Except RunError (String × Debugger)
  | .step count => match stepMany d.runner "" count with
    | .error e => .error e
    | .ok (written, runner) =>
      let drained := drain runner
      .ok (written ++ drained.1 ++ statusLine drained.2, { d with runner := drained.2 })
  | .proceed => match d.runner.resume.runFor d.maxSteps with
    | (.error e, _) => .error e
    | (.ok halt, runner) =>
      let drained := drain runner
      .ok (drained.1 ++ haltLine d.maxSteps halt, { d with runner := drained.2 })
  | .status => .ok (statusLine d.runner, d)
  | .list => .ok (d.listing.marked d.runner.state.pc, d)
  | .reset => .ok ("Program reset\n", { d with runner := d.runner.reset.rewindInput })
  | .quit => .ok ("", d)
  | .help => .ok (helpText, d)

/-- What a line leads to. -/
inductive Reply where
  | more (text : String) (next : Debugger)
  | finish
  | fail (error : SessionError)

/-- Answers a line. -/
def answer (d : Debugger) (line : String) : Reply :=
  match DebugCommand.ofLine line with
  | .error e => .more (e.message ++ "\n") d
  | .ok .quit => .finish
  | .ok command => match d.perform command with
    | .error e => .fail (.run e)
    | .ok (text, next) => .more text next

/-- The text of a line of bytes. The end of the line is taken away first, so a character that it cuts
short is incomplete rather than ill formed. -/
def lineText (bytes : List UInt8) : Except Utf8.Fault String :=
  Utf8.decode (Utf8.dropLineEnd bytes)

/-- Answers a line of bytes. -/
def answerBytes (d : Debugger) (bytes : List UInt8) : Reply :=
  match lineText bytes with
  | .error fault => .fail (.text fault)
  | .ok line => d.answer line

/-- What a session wrote, and why it broke off, if it did. -/
structure Transcript where
  text : String
  failure : Option SessionError
deriving DecidableEq

/-- Answers line after line, each behind a prompt. What was `written` before comes first. -/
def converse (d : Debugger) (written : String) : List (List UInt8) → Transcript
  | [] => ⟨written ++ prompt, none⟩
  | bytes :: rest => match d.answerBytes bytes with
    | .more text next => next.converse (written ++ prompt ++ text) rest
    | .finish => ⟨written ++ prompt, none⟩
    | .fail error => ⟨written ++ prompt, some error⟩

/-- A whole session on the bytes of its input. -/
def session (d : Debugger) (bytes : List UInt8) : Transcript :=
  d.converse d.banner (Utf8.lines bytes)

end Debugger

end AccumulatorMachine
