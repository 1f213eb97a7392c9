import AccumulatorMachine.Runner

/-!
A host runs a program to its end, one tick after the other. It passes on the output after each tick,
and goes on when a breakpoint is met.
-/
namespace AccumulatorMachine

structure Host where
  runner : Runner
  /-- The output passed on so far. -/
  printed : String := ""
  /-- The states at the breakpoints met so far. -/
  reported : Array State := #[]

namespace Host

def start (machine : Machine) (config : RunConfig) : Except RunError Host :=
  (Runner.start machine config).map fun runner => { runner }

/-- One tick. The run is over when it returns a reason to halt. -/
def tick (host : Host) : Except RunError (Option Halt × Host) :=
  match host.runner.tick with
  | (.error e, _) => .error e
  | (.ok halt?, runner) =>
    let taken := runner.takeOutput
    let printed := host.printed ++ taken.1
    match halt? with
    | none => .ok (none, { host with runner := taken.2, printed })
    | some (.breakpoint state) => .ok (none, { host with
        runner := taken.2.resume, printed, reported := host.reported.push state })
    | some halt => .ok (some halt, { host with
        runner := taken.2.note (.stopped taken.2.steps halt), printed })

/-- Runs a program for at most the given number of ticks. -/
def run (host : Host) : Nat → Except RunError (Option Halt × Host)
  | 0 => .ok (none, host)
  | ticks + 1 => match host.tick with
    | .ok (none, next) => next.run ticks
    | done => done

/-- The line that reports a breakpoint. -/
def breakpointLine (state : State) : String :=
  "Breakpoint: " ++ state.text ++ "\n"

end Host

end AccumulatorMachine
