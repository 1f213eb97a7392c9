import AccumulatorMachine.Proofs.Scheduling

/-!
Where one step leads. A step goes on to the next instruction unless it takes a jump that lands in the
program. A jump that misses the program is a fault, which is not undone: the operand has been read by
then, so the stack may have lost its top and the input a code, but nothing else has changed and the
output tells of it.
-/
namespace AccumulatorMachine

namespace Instruction

/-- The value of the operand in a state and before an input, zero if there is no operand. -/
def value (i : Instruction) (s : State) (input : Input) : Int64 :=
  match i.operand with
  | none => 0
  | some (.literal value) => value
  | some (.register .accumulator) => s.accumulator
  | some (.register .negated) => -s.accumulator
  | some (.register .stackTop) => s.stack.headD 0
  | some (.register .input) => input.next.1
  | some (.tag _ target) => Int64.ofNat target

/-- The stack behind the operand, which takes the top off only if it names it. -/
def stackBehind (i : Instruction) (stack : List Int64) : List Int64 :=
  if i.operand = some (.register .stackTop) then stack.tail else stack

/-- The input behind the operand, which takes a code only if it names the input. -/
def inputBehind (i : Instruction) (input : Input) : Input :=
  if i.operand = some (.register .input) then input.next.2 else input

/-- The opcode jumps, as the accumulator is. -/
def Takes (i : Instruction) (accumulator : Int64) : Prop :=
  i.opcode = .jump ∨
    i.opcode = .jumpIfPositive ∧ 0 < accumulator.toInt ∨
    i.opcode = .jumpIfNegative ∧ accumulator.toInt < 0 ∨
    i.opcode = .jumpIfZero ∧ accumulator.toInt = 0

instance (i : Instruction) (accumulator : Int64) : Decidable (i.Takes accumulator) :=
  inferInstanceAs (Decidable (_ ∨ _ ∨ _ ∨ _))

end Instruction

theorem State.pop_eq (s : State) : s.pop = (s.stack.headD 0, { s with stack := s.stack.tail }) := by
  obtain ⟨accumulator, stack, pc⟩ := s
  cases stack with
  | nil => rfl
  | cons top rest => rfl

namespace Instruction

variable {i : Instruction} {accumulator : Int64}

/-- Reading an operand gives its value and leaves behind a shorter stack or input, or none of these. -/
theorem operandValue_eq (i : Instruction) (s : State) (input : Input) :
    i.operandValue s input =
      (i.value s input, { s with stack := i.stackBehind s.stack }, i.inputBehind input) := by
  unfold operandValue value stackBehind inputBehind
  cases i.operand with
  | none => rfl
  | some operand =>
    cases operand with
    | literal _ | tag _ _ => rfl
    | register r =>
      cases r with
      | stackTop =>
        dsimp only [Operand.evaluate]
        rw [s.pop_eq]
        rfl
      | accumulator | negated | input => rfl

theorem jumps_iff_takes : jumps i.opcode accumulator = true ↔ i.Takes accumulator := by
  have hzero : (0 : Int64).toInt = 0 := Int64.toInt_zero
  unfold Takes
  cases i.opcode with
  | jumpIfPositive | jumpIfNegative => simp [jumps, Int64.lt_iff_toInt_lt, hzero]
  | jumpIfZero => simp [jumps, ← Int64.toInt_inj, hzero]
  | _ => simp [jumps]

theorem jumps_of_not_takes (h : ¬i.Takes accumulator) : jumps i.opcode accumulator = false := by
  rw [← Bool.not_eq_true, jumps_iff_takes]
  exact h

theorem not_takes_of_isTag (h : i.isTag = true) : ¬i.Takes accumulator := by
  rw [← jumps_iff_takes]
  unfold isTag at h
  cases hop : i.opcode with
  | tag => exact Bool.false_ne_true
  | _ =>
    rw [hop] at h
    cases h

end Instruction

namespace Emission

/-- The code of a character fits a word. -/
theorem toInt_charCode (c : Char) : (Int64.ofNat c.toNat).toInt = c.toNat := by
  have hvalid : c.toNat.isValidChar := c.valid
  apply Int64.toInt_ofNat_of_lt
  unfold Nat.isValidChar at hvalid
  omega

theorem text_char_code (c : Char) : text (.char (Int64.ofNat c.toNat)) = c.toString := by
  have hvalid : c.toNat.isValidChar := c.valid
  have hscalar : scalar (Int64.ofNat c.toNat) = c := by
    unfold scalar
    rw [toInt_charCode, Int.toNat_natCast, if_pos ⟨Int.natCast_nonneg _, hvalid⟩]
    exact Char.ofNat_toNat c
  exact congrArg Char.toString hscalar

/-- A text that is written character by character reads the same. -/
theorem join_text_ofText (message : String) :
    String.join ((ofText message).map text) = message := by
  have htext (c : Char) : (text (.char (Int64.ofNat c.toNat))).toList = [c] := by
    rw [text_char_code, Char.toString_eq_singleton, String.toList_singleton]
  apply String.toList_injective
  rw [String.toList_join]
  unfold ofText
  rw [List.map_map, List.flatMap_map]
  calc message.toList.flatMap (fun c => (text (.char (Int64.ofNat c.toNat))).toList)
    _ = message.toList.flatMap fun c => [c] := List.flatMap_congr fun c _ => htext c
    _ = message.toList := List.flatMap_singleton' _

end Emission

namespace Machine

variable {m : Machine} {i : Instruction}

/-- The value of an instruction's operand as the machine stands. -/
def valueOf (m : Machine) (i : Instruction) : Int64 :=
  i.value m.state m.input

/-- The state behind an instruction that has read its operand and done nothing else. -/
def stateBehind (m : Machine) (i : Instruction) : State :=
  ⟨m.state.accumulator, i.stackBehind m.state.stack, m.state.pc + 1⟩

theorem effect_of_takes (h : i.Takes m.state.accumulator) :
    m.effect i = .jump m.program (m.valueOf i) (m.stateBehind i) (i.inputBehind m.input) := by
  have hjumps : Instruction.jumps i.opcode
      (State.accumulator { m.state with pc := m.state.pc + 1 }) = true :=
    Instruction.jumps_iff_takes.mpr h
  unfold effect
  rw [Instruction.execute_of_jumps hjumps, Instruction.operandValue_eq]
  rfl

/-- A jump that lands does nothing but go there, once its operand is read. -/
theorem step_of_lands (hget : m.program.get? m.state.pc = some i)
    (htakes : i.Takes m.state.accumulator) (hlands : Lands m.program.size (m.valueOf i)) :
    m.step =
      (.ok ⟨m.state.pc, i, m.state, { m.stateBehind i with pc := (m.valueOf i).toInt.toNat }, none⟩,
        { m with state := { m.stateBehind i with pc := (m.valueOf i).toInt.toNat }
                 input := i.inputBehind m.input }) := by
  have heffect : m.effect i = ⟨{ m.stateBehind i with pc := (m.valueOf i).toInt.toNat },
      i.inputBehind m.input, [], none⟩ := by
    rw [effect_of_takes htakes, Effect.jump_eq, if_pos hlands]
  rw [step_of_get? hget, heffect]
  rfl

/-- A jump that misses the program goes on to the next instruction, and is reported. -/
theorem step_of_misses (hget : m.program.get? m.state.pc = some i)
    (htakes : i.Takes m.state.accumulator) (hmisses : ¬Lands m.program.size (m.valueOf i)) :
    m.step =
      (.ok ⟨m.state.pc, i, m.state, m.stateBehind i,
          some (.badJump (m.valueOf i) m.program.size)⟩,
        { m with
          state := m.stateBehind i
          input := i.inputBehind m.input
          output := m.output.put
            (Emission.ofText (Fault.badJump (m.valueOf i) m.program.size).message) }) := by
  have heffect : m.effect i = ⟨m.stateBehind i, i.inputBehind m.input, [],
      some (.badJump (m.valueOf i) m.program.size)⟩ := by
    rw [effect_of_takes htakes, Effect.jump_eq, if_neg hmisses]
  rw [step_of_get? hget, heffect]
  simp only [Option.map_some, Option.getD_some, List.nil_append]

/-- A step that takes no jump has no fault and goes on to the next instruction. -/
theorem step_of_not_takes (hget : m.program.get? m.state.pc = some i)
    (hnot : ¬i.Takes m.state.accumulator) :
    ∃ done next, m.step = (.ok done, next) ∧ done.index = m.state.pc ∧ done.fault = none ∧
      next.state.pc = m.state.pc + 1 := by
  have hjumps : Instruction.jumps i.opcode m.state.accumulator = false :=
    Instruction.jumps_of_not_takes hnot
  have heffect : (m.effect i).state.pc = m.state.pc + 1 ∧ (m.effect i).fault = none ∧
      (m.effect i).emitted = i.opcode.emits m.state.accumulator :=
    Instruction.execute_of_not_jumps hjumps
  obtain ⟨hpc, hfault, -⟩ := heffect
  exact ⟨_, _, step_of_get? hget, rfl, hfault, hpc⟩

/-- A tag is passed. Its operand, if it has one, is not read. -/
theorem step_of_isTag (hget : m.program.get? m.state.pc = some i) (htag : i.isTag = true) :
    m.step = (.ok ⟨m.state.pc, i, m.state, { m.state with pc := m.state.pc + 1 }, none⟩,
      { m with state := { m.state with pc := m.state.pc + 1 } }) := by
  have heffect : m.effect i = ⟨{ m.state with pc := m.state.pc + 1 }, m.input, [], none⟩ :=
    if_pos htag
  rw [step_of_get? hget, heffect]
  rfl

/-- How a step transfers control, and what it leaves behind when it fails to. -/
structure Transfers (m : Machine) (i : Instruction) (done : Step) (next : Machine) : Prop where
  index : done.index = m.state.pc
  fault_iff : ∀ fault, done.fault = some fault ↔
    i.Takes m.state.accumulator ∧
      ((m.valueOf i).toInt < 0 ∨ m.program.size < (m.valueOf i).toInt) ∧
      fault = .badJump (m.valueOf i) m.program.size
  pc_of_jump : i.Takes m.state.accumulator → done.fault = none →
    (next.state.pc : Int) = (m.valueOf i).toInt
  pc_of_passing : ¬(i.Takes m.state.accumulator ∧ done.fault = none) →
    next.state.pc = m.state.pc + 1
  /-- A fault undoes nothing: what reading the operand took stays taken. -/
  faulted : ∀ fault, done.fault = some fault →
    next = { m with
      state := ⟨m.state.accumulator, i.stackBehind m.state.stack, m.state.pc + 1⟩
      input := i.inputBehind m.input
      output := m.output.put (Emission.ofText fault.message) } ∧
    next.output.contents = m.output.contents ++ fault.message
  passed_tag : i.isTag = true →
    done.fault = none ∧ next = { m with state := { m.state with pc := m.state.pc + 1 } }

theorem not_lands_iff {size : Nat} {target : Int64} :
    ¬Lands size target ↔ target.toInt < 0 ∨ size < target.toInt := by
  unfold Lands
  omega

variable {done : Step} {next : Machine}

theorem transfers_of_takes (hget : m.program.get? m.state.pc = some i)
    (h : m.step = (.ok done, next)) (htakes : i.Takes m.state.accumulator) :
    m.Transfers i done next := by
  have hno : ¬i.isTag = true := fun htag => Instruction.not_takes_of_isTag htag htakes
  by_cases hlands : Lands m.program.size (m.valueOf i)
  · rw [step_of_lands hget htakes hlands] at h
    obtain ⟨rfl, rfl⟩ := okPair_inj h
    refine ⟨rfl, fun fault => ?_, fun _ _ => Int.toNat_of_nonneg hlands.1,
      fun hpassing => absurd ⟨htakes, rfl⟩ hpassing, fun fault hfault => ?_,
      fun htag => absurd htag hno⟩
    · rw [← not_lands_iff]
      simp [hlands]
    · cases hfault
  · rw [step_of_misses hget htakes hlands] at h
    obtain ⟨rfl, rfl⟩ := okPair_inj h
    refine ⟨rfl, fun fault => ?_, fun _ hfault => ?_, fun _ => rfl, fun fault hfault => ?_,
      fun htag => absurd htag hno⟩
    · rw [← not_lands_iff]
      simp [hlands, htakes, eq_comm]
    · cases hfault
    · obtain rfl := Option.some.inj hfault
      refine ⟨rfl, ?_⟩
      rw [Output.contents_put, Emission.join_text_ofText]

theorem transfers_of_not_takes (hget : m.program.get? m.state.pc = some i)
    (h : m.step = (.ok done, next)) (hnot : ¬i.Takes m.state.accumulator) :
    m.Transfers i done next := by
  obtain ⟨done', next', hstep, hindex, hfault, hpc⟩ := step_of_not_takes hget hnot
  obtain ⟨rfl, rfl⟩ := okPair_inj (h.symm.trans hstep)
  refine ⟨hindex, fun fault => ?_, fun htakes => absurd htakes hnot, fun _ => hpc,
    fun fault hsome => ?_, fun htag => ?_⟩
  · simp [hfault, hnot]
  · cases hfault.symm.trans hsome
  · rw [step_of_isTag hget htag] at h
    obtain ⟨rfl, rfl⟩ := okPair_inj h
    exact ⟨rfl, rfl⟩

theorem transfers_of_step (h : m.step = (.ok done, next)) :
    ∃ i, m.program.get? m.state.pc = some i ∧ m.Transfers i done next := by
  obtain ⟨i, hget, -⟩ := step_eq_ok h
  refine ⟨i, hget, ?_⟩
  by_cases htakes : i.Takes m.state.accumulator
  · exact transfers_of_takes hget h htakes
  · exact transfers_of_not_takes hget h htakes

/-- A machine that is not at its end makes a step, whatever opcode and operand the instruction has and
whatever state the machine is in. The step transfers control as the instruction says. -/
theorem step_transfers_control (m : Machine) (h : m.atEnd = false) :
    ∃ i done next, m.program.get? m.state.pc = some i ∧ m.step = (.ok done, next) ∧
      m.Transfers i done next := by
  obtain ⟨done, next, hstep⟩ := exists_step h
  obtain ⟨i, hget, htransfers⟩ := transfers_of_step hstep
  exact ⟨i, done, next, hget, hstep, htransfers⟩

end Machine

/-- Jumps to where the stack says, with a tag before it that has an operand. -/
def stumbling : Program :=
  .ofInstructions #[⟨.assign, some (.literal 9), false, none⟩, ⟨.push, none, false, none⟩,
    ⟨.tag, some (.register .stackTop), false, some "here"⟩,
    ⟨.jumpIfPositive, some (.register .stackTop), true, none⟩, ⟨.putNumber, none, false, none⟩]

def stumbled (count : Nat) : Machine :=
  (Machine.steps { program := stumbling } count).2

theorem stumbling_transfers_control :
    (∃ i done next, (stumbled 2).step = (.ok done, next) ∧ i.isTag = true ∧
      (stumbled 2).Transfers i done next ∧ next.state = ⟨9, [9], 3⟩) ∧
    ∃ i done next, (stumbled 3).step = (.ok done, next) ∧ i.Takes (stumbled 3).state.accumulator ∧
      (stumbled 3).Transfers i done next ∧ done.fault = some (.badJump 9 5) ∧
      next.state = ⟨9, [], 4⟩ ∧
      next.output.contents = "Jump target 9 out of range (program has 5 instructions)" := by
  obtain ⟨i, done, next, hget, hstep, hpassed⟩ :=
    Machine.step_transfers_control (stumbled 2) (by decide +kernel)
  obtain ⟨j, done', next', hget', hstep', hfailed⟩ :=
    Machine.step_transfers_control (stumbled 3) (by decide +kernel)
  have hi : (stumbled 2).program.get? (stumbled 2).state.pc =
      some ⟨.tag, some (.register .stackTop), false, some "here"⟩ := by decide +kernel
  have hj : (stumbled 3).program.get? (stumbled 3).state.pc =
      some ⟨.jumpIfPositive, some (.register .stackTop), true, none⟩ := by decide +kernel
  obtain rfl := Option.some.inj (hget.symm.trans hi)
  obtain rfl := Option.some.inj (hget'.symm.trans hj)
  have htakes : Instruction.Takes ⟨.jumpIfPositive, some (.register .stackTop), true, none⟩
      (stumbled 3).state.accumulator := by decide +kernel
  have hfault : done'.fault = some (.badJump 9 5) := by
    rw [hfailed.fault_iff]
    exact ⟨htakes, Or.inr (by decide +kernel), by decide +kernel⟩
  have hreport : (stumbled 3).output.contents ++ (Fault.badJump 9 5).message =
      "Jump target 9 out of range (program has 5 instructions)" := by decide +kernel
  obtain ⟨-, hnext⟩ := hpassed.passed_tag rfl
  obtain ⟨hnext', hcontents⟩ := hfailed.faulted _ hfault
  refine ⟨⟨_, done, next, hstep, rfl, hpassed, ?_⟩, _, done', next', hstep', htakes, hfailed, hfault,
    ?_, hcontents.trans hreport⟩
  · rw [hnext]
    decide +kernel
  · rw [hnext']
    decide +kernel

end AccumulatorMachine
