import AccumulatorMachine.Proofs.ControlTransfer
import AccumulatorMachine.Proofs.InputDependence
import AccumulatorMachine.Proofs.ResolvedJumps

/-!
The machine computes modulo 2^64. Beside it stands a machine over all integers, whose additions and
negations are exact. Without jumps the two go the same way, and every word is the integer in its place,
reduced. Whether words are reduced at each step or integers once at the end makes no difference.
-/
namespace AccumulatorMachine

inductive ExactEmission where
  | char (code : Int)
  | number (value : Int)
deriving DecidableEq

/-- A machine for the same programs whose accumulator and stack hold integers of any size. -/
structure ExactMachine where
  program : Program
  accumulator : Int := 0
  /-- The newest value comes first. -/
  stack : List Int := []
  pc : Nat := 0
  input : Input := .exhausted
  /-- The number of codes taken from the input. -/
  taken : Nat := 0
  /-- What was written, in order. -/
  written : List ExactEmission := []
deriving DecidableEq

namespace ExactMachine

/-- The value of an operand, with the machine after reading it. -/
def read (e : ExactMachine) : Option Operand → Int × ExactMachine
  | none => (0, e)
  | some (.literal value) => (value.toInt, e)
  | some (.register .accumulator) => (e.accumulator, e)
  | some (.register .negated) => (-e.accumulator, e)
  | some (.register .stackTop) => (e.stack.headD 0, { e with stack := e.stack.tail })
  | some (.register .input) =>
    (e.input.next.1.toInt, { e with input := e.input.next.2, taken := e.taken + 1 })
  | some (.tag _ target) => (target, e)

def write (e : ExactMachine) (emission : ExactEmission) : ExactMachine :=
  { e with written := e.written ++ [emission] }

/-- Jumps into the program or behind its last instruction. Any other target is reported. -/
def jump (e : ExactMachine) (target : Int) : ExactMachine :=
  if 0 ≤ target ∧ target ≤ e.program.size then { e with pc := target.toNat }
  else
    s!"Jump target {target} out of range (program has {e.program.size} instructions)".toList.foldl
      (fun e c => e.write (.char c.toNat)) e

def perform (e : ExactMachine) (op : Opcode) (value : Int) : ExactMachine :=
  match op with
  | .add => { e with accumulator := e.accumulator + value }
  | .assign => { e with accumulator := value }
  | .jump => e.jump value
  | .jumpIfPositive => if 0 < e.accumulator then e.jump value else e
  | .jumpIfNegative => if e.accumulator < 0 then e.jump value else e
  | .jumpIfZero => if e.accumulator = 0 then e.jump value else e
  | .push => { e with stack := e.accumulator :: e.stack }
  | .pop => { e with accumulator := e.stack.headD 0, stack := e.stack.tail }
  | .flush => { e with stack := [] }
  | .putChar => e.write (.char e.accumulator)
  | .putNumber => e.write (.number e.accumulator)
  | .nop | .tag => e

def execute (e : ExactMachine) (i : Instruction) : ExactMachine :=
  if i.isTag then e else (e.read i.operand).2.perform i.opcode (e.read i.operand).1

/-- The machine after its next instruction, if there is one. -/
def step? (e : ExactMachine) : Option ExactMachine :=
  (e.program.get? e.pc).map fun i => { e with pc := e.pc + 1 }.execute i

/-- Executes up to `count` instructions, as long as there are any. -/
def steps (e : ExactMachine) : (count : Nat) → ExactMachine
  | 0 => e
  | n + 1 => match e.step? with
    | none => e
    | some next => next.steps n

end ExactMachine

/-- The emission with its value reduced to a word in two's complement. -/
def ExactEmission.reduce : ExactEmission → Emission
  | .char code => .char (Int64.ofInt code)
  | .number value => .number (Int64.ofInt value)

namespace ExactMachine

/-- The machine over words that has every integer reduced. -/
def reduce (e : ExactMachine) : Machine where
  program := e.program
  state := ⟨Int64.ofInt e.accumulator, e.stack.map Int64.ofInt, e.pc⟩
  input := e.input
  output := ⟨(e.written.map ExactEmission.reduce).reverse⟩

variable {e next : ExactMachine} {i : Instruction} {op : Opcode}

theorem headD_map_ofInt (stack : List Int) :
    (stack.map Int64.ofInt).headD 0 = Int64.ofInt (stack.headD 0) := by
  cases stack with
  | nil => rfl
  | cons top rest => rfl

theorem pop_reduce (e : ExactMachine) : e.reduce.state.pop =
    (Int64.ofInt (e.stack.headD 0), { e with stack := e.stack.tail }.reduce.state) := by
  rw [State.pop_eq]
  simp only [reduce, headD_map_ofInt, List.map_tail]

theorem reduce_write (e : ExactMachine) (emission : ExactEmission) :
    (e.write emission).reduce = { e.reduce with output := e.reduce.output.put [emission.reduce] } := by
  simp only [write, reduce, Output.put, List.map_append, List.map_singleton, List.reverse_append,
    List.reverse_singleton]

/-- Reading an operand before or after the reduction. -/
theorem operandValue_reduce (e : ExactMachine) (i : Instruction) :
    i.operandValue e.reduce.state e.reduce.input = (Int64.ofInt (e.read i.operand).1,
      (e.read i.operand).2.reduce.state, (e.read i.operand).2.reduce.input) := by
  unfold Instruction.operandValue
  cases i.operand with
  | none => rfl
  | some operand =>
    cases operand with
    | literal value => simp only [Operand.evaluate, read, Int64.ofInt_toInt]
    | tag name target => simp only [Operand.evaluate, read, Int64.ofInt_eq_ofNat]
    | register r =>
      cases r with
      | accumulator => rfl
      | negated => simp only [Operand.evaluate, read, Int64.ofInt_neg]; rfl
      | stackTop => simp only [Operand.evaluate, read, pop_reduce]; rfl
      | input => simp only [Operand.evaluate, read, Int64.ofInt_toInt]; rfl

/-- The effect of an instruction on the reduced machine leads to the reduction of the other machine. -/
structure LeadsTo (e : ExactMachine) (effect : Effect) (next : ExactMachine) : Prop where
  fault : effect.fault = none
  reduce : next.reduce =
    ⟨e.program, effect.state, effect.input, e.reduce.output.put effect.emitted⟩

theorem leadsTo_perform (e : ExactMachine) (hop : op.isJump = false) (p : Program) (value : Int) :
    e.LeadsTo (Instruction.perform p op (Int64.ofInt value) e.reduce.state e.reduce.input)
      (e.perform op value) := by
  cases op with
  | jump | jumpIfPositive | jumpIfZero | jumpIfNegative => cases hop
  | add =>
    refine ⟨rfl, ?_⟩
    simp only [Instruction.perform, perform, State.add, reduce, Int64.ofInt_add]
    rfl
  | pop =>
    refine ⟨rfl, ?_⟩
    simp only [Instruction.perform, pop_reduce]
    rfl
  | putChar | putNumber => exact ⟨rfl, e.reduce_write _⟩
  | assign | push | flush | nop | tag => exact ⟨rfl, rfl⟩

/-- Reading an operand takes at most one code from the input, and writes nothing. -/
theorem read_frame (e : ExactMachine) (operand? : Option Operand) :
    (e.read operand?).2.program = e.program ∧ (e.read operand?).2.written = e.written ∧
      (e.read operand?).2.taken =
        if operand? = some (.register .input) then e.taken + 1 else e.taken := by
  rcases operand? with _ | ⟨_ | r | _⟩
  · exact ⟨rfl, rfl, rfl⟩
  · exact ⟨rfl, rfl, rfl⟩
  · cases r with
    | accumulator | negated | stackTop | input => exact ⟨rfl, rfl, rfl⟩
  · exact ⟨rfl, rfl, rfl⟩

theorem leadsTo_execute (e : ExactMachine) (hi : i.opcode.isJump = false) (p : Program) :
    e.LeadsTo (i.execute p e.reduce.state e.reduce.input) (e.execute i) := by
  unfold Instruction.execute execute
  cases htag : i.isTag with
  | true => exact ⟨rfl, rfl⟩
  | false =>
    obtain ⟨hprogram, hwritten, -⟩ := e.read_frame i.operand
    have hperform := (e.read i.operand).2.leadsTo_perform hi p (e.read i.operand).1
    have houtput : (e.read i.operand).2.reduce.output = e.reduce.output := by
      unfold reduce
      rw [hwritten]
    rw [if_neg Bool.false_ne_true, if_neg Bool.false_ne_true, operandValue_reduce]
    refine ⟨hperform.fault, ?_⟩
    rw [hperform.reduce, hprogram, houtput]

theorem taken_perform (e : ExactMachine) (hop : op.isJump = false) (value : Int) :
    (e.perform op value).taken = e.taken := by
  cases op with
  | jump | jumpIfPositive | jumpIfZero | jumpIfNegative => cases hop
  | _ => rfl

theorem taken_execute (e : ExactMachine) (hi : i.opcode.isJump = false) :
    (e.execute i).taken = if i.readsInput then e.taken + 1 else e.taken := by
  unfold execute Instruction.readsInput
  cases i.isTag with
  | true => rfl
  | false =>
    rw [if_neg Bool.false_ne_true, taken_perform _ hi, (e.read_frame i.operand).2.2]
    simp

/-- One step before and after the reduction. -/
theorem step_reduce (h : e.step? = some next)
    (hstraight : ∀ i ∈ e.program.instructions.toList, i.opcode.isJump = false) :
    ∃ done, e.reduce.step = (.ok done, next.reduce) ∧
      next.taken = if done.instruction.readsInput then e.taken + 1 else e.taken := by
  obtain ⟨i, hget, hnext⟩ := Option.map_eq_some_iff.mp h
  have hi : i.opcode.isJump = false := by
    apply hstraight
    rw [Array.mem_toList_iff]
    exact Array.mem_of_getElem? hget
  obtain ⟨hfault, hreduce⟩ := { e with pc := e.pc + 1 }.leadsTo_execute hi e.program
  have htaken := { e with pc := e.pc + 1 }.taken_execute hi
  rw [hnext] at hreduce htaken
  have hfetch : e.reduce.program.get? e.reduce.state.pc = some i := hget
  have hquiet : (e.reduce.effect i).fault = none := hfault
  refine ⟨⟨e.pc, i, e.reduce.state, (e.reduce.effect i).state, none⟩, ?_, htaken⟩
  rw [Machine.step_of_get? hfetch, hquiet, hreduce, Option.map_none, Option.getD_none,
    List.append_nil]
  rfl

theorem step?_eq_none_iff (e : ExactMachine) : e.step? = none ↔ e.reduce.atEnd = true := by
  unfold step? Machine.atEnd State.atEnd
  rw [Option.map_eq_none_iff, decide_eq_true_iff]
  exact Array.getElem?_eq_none_iff

/-- Reduced at each step or once at the end, the machine comes to be the same. -/
theorem steps_reduce (e : ExactMachine)
    (hstraight : ∀ i ∈ e.program.instructions.toList, i.opcode.isJump = false) (n : Nat) :
    (e.reduce.steps n).2 = (e.steps n).reduce ∧
      (e.steps n).taken = e.taken + e.reduce.reads n := by
  induction n generalizing e with
  | zero => exact ⟨rfl, rfl⟩
  | succ n ih =>
    unfold steps
    cases hstep? : e.step? with
    | none =>
      have hend := e.step?_eq_none_iff.mp hstep?
      unfold Machine.reads
      rw [Machine.steps_of_atEnd hend]
      exact ⟨rfl, rfl⟩
    | some next =>
      obtain ⟨done, hstep, htaken⟩ := step_reduce hstep? hstraight
      have hprogram : next.program = e.program := Machine.program_step hstep
      rw [← hprogram] at hstraight
      obtain ⟨hlast, hlater⟩ := ih next hstraight
      rw [Machine.steps_of_step hstep, Machine.reads_of_step hstep]
      refine ⟨hlast, ?_⟩
      dsimp only
      rw [hlater, htaken]
      split
      · omega
      · rfl

end ExactMachine

/-- Without jumps the machine does what the one over the integers does, with every value reduced to a
word in two's complement. Both stand before the same instruction after any number of steps, have
stacks of the same depth and have taken the same codes from the input. -/
theorem Machine.computes_modulo_word (p : Program)
    (hstraight : ∀ i ∈ p.instructions.toList, i.opcode.isJump = false) (input : Input) (n : Nat)
    {words : Machine} (hwords : (Machine.steps { program := p, input } n).2 = words)
    {ints : ExactMachine} (hints : ExactMachine.steps { program := p, input } n = ints) :
    words.state.pc = ints.pc ∧ words.state.stack.length = ints.stack.length ∧
    words.input = ints.input ∧ Machine.reads { program := p, input } n = ints.taken ∧
    words.state.accumulator = Int64.ofInt ints.accumulator ∧
    words.state.stack = ints.stack.map Int64.ofInt ∧
    words.output.items = ints.written.map ExactEmission.reduce := by
  obtain ⟨hlast, htaken⟩ := ExactMachine.steps_reduce { program := p, input } hstraight n
  rw [hints, Nat.zero_add] at htaken
  have hreduce : words = ints.reduce := by
    rw [← hwords, ← hints]
    exact hlast
  subst hreduce
  refine ⟨rfl, List.length_map _, rfl, htaken.symm, rfl, rfl, ?_⟩
  exact List.reverse_reverse _

/-- Doubles a number until it is no word, then jumps if it is zero. -/
def doubling : Program :=
  .ofInstructions #[⟨.assign, some (.literal 4611686018427387904), false, none⟩,
    ⟨.add, some (.register .accumulator), false, none⟩,
    ⟨.add, some (.register .accumulator), false, none⟩,
    ⟨.jumpIfZero, some (.literal 5), false, none⟩, ⟨.nop, none, false, none⟩]

example : (Machine.steps { program := doubling } 4).2.state.pc = 5 ∧
    (ExactMachine.steps { program := doubling } 4).pc = 4 := by
  decide +kernel

/-- Doubles its way out of the range of words, and comes back over the stack. -/
def overflowing : Program :=
  .ofInstructions #[⟨.assign, some (.literal 4611686018427387904), false, none⟩,
    ⟨.add, some (.register .accumulator), false, none⟩, ⟨.push, none, false, none⟩,
    ⟨.add, some (.register .accumulator), false, none⟩, ⟨.putNumber, none, false, none⟩,
    ⟨.assign, some (.register .negated), false, none⟩,
    ⟨.add, some (.register .stackTop), false, none⟩, ⟨.putNumber, none, true, none⟩,
    ⟨.add, some (.register .input), false, none⟩, .tag "here",
    ⟨.add, some (.tag "here" 9), false, none⟩]

def overflown : ExactMachine :=
  ExactMachine.steps { program := overflowing, input := .ofString "a" } 20

theorem overflowing_modulo_word :
    (∀ i ∈ overflowing.instructions.toList, i.opcode.isJump = false) ∧
    overflown.accumulator = -9223372036854775702 ∧
    overflown.written = [.number 18446744073709551616, .number (-9223372036854775808)] ∧
    Machine.reads { program := overflowing, input := .ofString "a" } 20 = 1 ∧
    ∃ words : Machine,
      (Machine.steps { program := overflowing, input := .ofString "a" } 20).2 = words ∧
      words.state.accumulator = Int64.ofInt (-9223372036854775702) ∧
      words.output.items = [.number 0, .number Int64.minValue] := by
  have hstraight : ∀ i ∈ overflowing.instructions.toList, i.opcode.isJump = false := by decide
  have haccumulator : overflown.accumulator = -9223372036854775702 := by decide +kernel
  have hwritten : overflown.written =
      [.number 18446744073709551616, .number (-9223372036854775808)] := by decide +kernel
  obtain ⟨-, -, -, htaken, hword, -, hitems⟩ :=
    Machine.computes_modulo_word overflowing hstraight (.ofString "a") 20 rfl
      (rfl : _ = overflown)
  rw [haccumulator] at hword
  rw [hwritten] at hitems
  refine ⟨hstraight, haccumulator, hwritten, htaken.trans ?_, _, rfl, hword, hitems.trans ?_⟩
  · decide +kernel
  · decide +kernel

end AccumulatorMachine
