import AccumulatorMachine.Machine.State
import AccumulatorMachine.Machine.Input
import AccumulatorMachine.Machine.Output

/-!
One step of the machine. An instruction is fetched, its operand evaluated and its effect carried out.
A jump out of the program is a fault: it is reported in the output, and the machine goes on with the
next instruction.
-/
namespace AccumulatorMachine

inductive Fault where
  | exhausted
  | badJump (target : Int64) (size : Nat)
deriving DecidableEq

def Fault.message : Fault → String
  | .exhausted => "Program exhausted: no instructions left to execute"
  | .badJump target size =>
    s!"Jump target {Decimal.ofWord target} out of range (program has {size} instructions)"

/-- The value of an operand, with the state and input after reading it. A tag stands for its target,
taken as a signed word. -/
def Operand.evaluate (operand : Operand) (s : State) (input : Input) : Int64 × State × Input :=
  match operand with
  | .literal value => (value, s, input)
  | .register .accumulator => (s.accumulator, s, input)
  | .register .negated => (-s.accumulator, s, input)
  | .register .stackTop => (s.pop.1, s.pop.2, input)
  | .register .input => (input.next.1, s, input.next.2)
  | .tag _ target => (Int64.ofNat target, s, input)

/-- What executing an instruction brings about. -/
structure Effect where
  state : State
  input : Input
  emitted : List Emission := []
  fault : Option Fault := none
deriving DecidableEq

/-- The effect of a jump in a program. It can go behind the last instruction. -/
def Effect.jump (p : Program) (target : Int64) (s : State) (input : Input) : Effect :=
  let missed : Effect := { state := s, input, fault := some (.badJump target p.size) }
  if target < 0 then missed
  else match s.goTo p target.toInt.toNat with
    | .ok state => { state, input }
    | .error _ => missed

namespace Instruction

/-- The condition under which an opcode jumps. -/
def jumps (op : Opcode) (accumulator : Int64) : Bool :=
  match op with
  | .jump => true
  | .jumpIfPositive => decide (0 < accumulator)
  | .jumpIfNegative => decide (accumulator < 0)
  | .jumpIfZero => decide (accumulator = 0)
  | _ => false

/-- The value of an instruction's operand, zero if there is none. Operands are evaluated also where
the opcode has no use for the value. -/
def operandValue (i : Instruction) (s : State) (input : Input) : Int64 × State × Input :=
  match i.operand with
  | some operand => operand.evaluate s input
  | none => (0, s, input)

/-- Carries out an opcode on the value of its operand. -/
def perform (p : Program) (op : Opcode) (value : Int64) (s : State) (input : Input) : Effect :=
  match op with
  | .add => { state := s.add value, input }
  | .assign => { state := s.assign value, input }
  | .jump | .jumpIfPositive | .jumpIfNegative | .jumpIfZero =>
    if jumps op s.accumulator then .jump p value s input else { state := s, input }
  | .push => { state := s.push s.accumulator, input }
  | .pop => { state := s.pop.2.assign s.pop.1, input }
  | .flush => { state := s.clear, input }
  | .putChar => { state := s, input, emitted := [.char s.accumulator] }
  | .putNumber => { state := s, input, emitted := [.number s.accumulator] }
  | .nop | .tag => { state := s, input }

/-- Executes an instruction of a program, in a state that stands behind it. -/
def execute (p : Program) (i : Instruction) (s : State) (input : Input) : Effect :=
  if i.isTag then { state := s, input }
  else
    let operand := i.operandValue s input
    perform p i.opcode operand.1 operand.2.1 operand.2.2

end Instruction

/-- The record of one step. -/
structure Step where
  index : Nat
  instruction : Instruction
  before : State
  after : State
  fault : Option Fault
deriving DecidableEq

namespace Step

def breakpoint (step : Step) : Bool :=
  step.instruction.breakpoint

/-- The state an observer of breakpoints sees. -/
def hit? (step : Step) : Option State :=
  if step.breakpoint then some step.after else none

end Step

structure Machine where
  program : Program
  state : State := {}
  input : Input := .exhausted
  output : Output := {}
deriving DecidableEq

namespace Machine

def atEnd (m : Machine) : Bool :=
  m.state.atEnd m.program

/-- Executes the next instruction. Where there is none, the machine stays as it is. -/
def step (m : Machine) : Except Fault Step × Machine :=
  match m.state.fetch m.program with
  | .error _ => (.error .exhausted, m)
  | .ok (i, fetched) =>
    let effect := i.execute m.program fetched m.input
    let report := (effect.fault.map fun fault => Emission.ofText fault.message).getD []
    (.ok ⟨m.state.pc, i, m.state, effect.state, effect.fault⟩,
      { m with
        state := effect.state
        input := effect.input
        output := m.output.put (effect.emitted ++ report) })

/-- Executes up to `count` instructions, as long as there are any. -/
def steps (m : Machine) : (count : Nat) → List Step × Machine
  | 0 => ([], m)
  | n + 1 => match m.step with
    | (.error _, last) => ([], last)
    | (.ok done, next) =>
      let later := next.steps n
      (done :: later.1, later.2)

/-- Goes back to the first instruction with cleared memory. Input and output stay. -/
def reset (m : Machine) : Machine :=
  { m with state := {} }

end Machine

end AccumulatorMachine
