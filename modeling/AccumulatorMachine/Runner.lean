import AccumulatorMachine.Log
import AccumulatorMachine.Machine.Step

/-!
A runner drives a machine from outside: by single steps, or by bounded runs that pause at breakpoints
and respect a limit on the number of steps. It keeps the states seen at breakpoints and notes on what
happened.
-/
namespace AccumulatorMachine

structure RunConfig where
  /-- Note every instruction before it is executed. -/
  trace : Bool := false
  stopAtBreakpoints : Bool := true
  stepLimit : Option Nat := none
  stepsPerTick : Nat := 1
deriving DecidableEq

/-- Why a run stopped. -/
inductive Halt where
  | finished
  /-- A breakpoint was executed; the state is the one after it. -/
  | breakpoint (state : State)
  /-- The runner was paused before the run. -/
  | paused
  | stepLimit
deriving DecidableEq

def Halt.name : Halt → String
  | .finished => "Finished"
  | .breakpoint _ => "Breakpoint"
  | .paused => "Paused"
  | .stepLimit => "StepLimit"

inductive RunError where
  | machine (fault : Fault)
  /-- A tick of no steps would never get anywhere. -/
  | emptyTick
deriving DecidableEq

def RunError.message : RunError → String
  | .machine fault => "VM error: " ++ fault.message
  | .emptyTick => "Runtime configuration error: steps_per_tick must be at least 1"

/-- What a run tells about itself. -/
inductive RunNote where
  | executing (index : Nat) (instruction : Instruction) (before : State)
  | fault (index : Nat) (instruction : Instruction) (cause : Fault)
  | breakpoint (index : Nat) (after : State)
  | limitReached (steps : Nat)
  | stopped (steps : Nat) (halt : Halt)
deriving DecidableEq

def RunNote.event : RunNote → Log.Event
  | .executing index instruction before =>
    ⟨.debug, "executing", [("pc", Decimal.ofNat index), ("instruction", instruction.text),
      ("accumulator", Decimal.ofWord before.accumulator), ("stack", before.stackText)]⟩
  | .fault index instruction cause =>
    ⟨.warn, "runtime error", [("pc", Decimal.ofNat index), ("instruction", instruction.text),
      ("error", cause.message)]⟩
  | .breakpoint index after =>
    ⟨.debug, "breakpoint", [("pc", Decimal.ofNat index), ("state", after.text)]⟩
  | .limitReached steps => ⟨.debug, "step limit reached", [("steps", Decimal.ofNat steps)]⟩
  | .stopped steps halt =>
    ⟨.debug, "run stopped", [("steps", Decimal.ofNat steps), ("halt", halt.name)]⟩

/-- The notes on a step, in the order in which things happen. -/
def Step.notes (step : Step) (trace : Bool) : List RunNote :=
  (if trace then [.executing step.index step.instruction step.before] else []) ++
    step.fault.toList.map (.fault step.index step.instruction) ++
    step.hit?.toList.map (.breakpoint step.index)

structure Runner where
  machine : Machine
  config : RunConfig := {}
  paused : Bool := false
  /-- The number of steps since the start or the last reset. -/
  steps : Nat := 0
  /-- The states after the breakpoints executed so far, the newest first. -/
  seen : List State := []
  /-- The notes made so far, the newest first. -/
  noted : List RunNote := []

namespace Runner

/-- A runner at the start of its program, if the configuration allows for one. -/
def start (machine : Machine) (config : RunConfig) : Except RunError Runner :=
  if config.stepsPerTick = 0 then .error .emptyTick else .ok { machine, config }

def state (r : Runner) : State :=
  r.machine.state

def isFinished (r : Runner) : Bool :=
  r.machine.atEnd

/-- No further step may be made. -/
def limitReached (r : Runner) : Bool :=
  r.config.stepLimit.any fun limit => decide (limit ≤ r.steps)

/-- The states after the breakpoints executed so far. -/
def hits (r : Runner) : List State :=
  r.seen.reverse

def notes (r : Runner) : List RunNote :=
  r.noted.reverse

def note (r : Runner) (note : RunNote) : Runner :=
  { r with noted := note :: r.noted }

/-- Executes one instruction, paused or not. -/
def step (r : Runner) : Except RunError Step × Runner :=
  match r.machine.step with
  | (.error fault, machine) => (.error (.machine fault), { r with machine })
  | (.ok done, machine) => (.ok done, { r with
      machine
      steps := r.steps + 1
      seen := done.hit?.toList ++ r.seen
      noted := (done.notes r.config.trace).reverse ++ r.noted })

/-- Makes at most `budget` steps, looking at the end of the program first, then at the limit. No
reason to halt is given when the budget runs out before the program does. -/
def advance (r : Runner) : Nat → Except RunError (Option Halt) × Runner
  | 0 => (.ok (if r.isFinished then some .finished else none), r)
  | budget + 1 =>
    if r.isFinished then (.ok (some .finished), r)
    else if r.limitReached then (.ok (some .stepLimit), r.note (.limitReached r.steps))
    else match r.step with
      | (.error e, last) => (.error e, last)
      | (.ok done, next) =>
        if done.breakpoint && r.config.stopAtBreakpoints then
          (.ok (some (.breakpoint next.state)), { next with paused := true })
        else next.advance budget

/-- Makes at most `budget` steps, unless paused. -/
def runFor (r : Runner) (budget : Nat) : Except RunError (Option Halt) × Runner :=
  if r.paused then (.ok (some .paused), r) else r.advance budget

/-- Makes the steps of one tick. -/
def tick (r : Runner) : Except RunError (Option Halt) × Runner :=
  r.runFor r.config.stepsPerTick

/-- Runs until there is a reason to halt, in at most `rounds` runs of as many steps as a word can
count. An endless program gives no reason in any number of rounds. -/
def run (r : Runner) : Nat → Except RunError (Option Halt) × Runner
  | 0 => (.ok none, r)
  | rounds + 1 => match r.runFor (Decimal.wordLimit - 1) with
    | (.ok none, next) => next.run rounds
    | done => done

def pause (r : Runner) : Runner :=
  { r with paused := true }

def resume (r : Runner) : Runner :=
  { r with paused := false }

/-- Goes back to the start of the program. Input, output and what was seen so far stay. -/
def reset (r : Runner) : Runner :=
  { r with machine := r.machine.reset, paused := false, steps := 0 }

def rewindInput (r : Runner) : Runner :=
  { r with machine := { r.machine with input := r.machine.input.rewind } }

/-- Takes away the output written so far. -/
def takeOutput (r : Runner) : String × Runner :=
  let taken := r.machine.output.take
  (taken.1, { r with machine := { r.machine with output := taken.2 } })

def log (r : Runner) : List Log.Event :=
  r.notes.map RunNote.event

end Runner

end AccumulatorMachine
