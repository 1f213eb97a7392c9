import AccumulatorMachine.Proofs.ControlTransfer
import AccumulatorMachine.Proofs.ResolvedJumps

/-!
Programs that jump forward only. Whatever such a program reads, each of its steps leads to a higher
index: a jump that is taken goes beyond its own place, and one that misses the program, or is not
taken, goes on to the next instruction. So the program ends within as many steps as it has
instructions, and without jumps it goes through all of them in their order.
-/
namespace AccumulatorMachine

/-- The value of an operand that is the same in every state: a number, or the target of a tag, taken as
a signed word. -/
def Operand.fixed? : Operand → Option Int64
  | .literal value => some value
  | .register _ => none
  | .tag _ target => some (Int64.ofNat target)

/-- The instruction has a fixed operand, which is no index at all or one behind the given one. -/
def Instruction.PointsBeyond (i : Instruction) (index : Nat) : Prop :=
  (i.operand.bind Operand.fixed?).any
    (fun value => decide (value.toInt < 0 ∨ (index : Int) < value.toInt)) = true

instance (i : Instruction) (index : Nat) : Decidable (i.PointsBeyond index) :=
  inferInstanceAs (Decidable (Option.any _ _ = true))

namespace Program

/-- Every jump of the program points beyond its own index. It may point beyond the program too. -/
def JumpsForward (p : Program) : Prop :=
  ∀ (index : Nat) (h : index < p.instructions.size),
    p.instructions[index].opcode.isJump = true → p.instructions[index].PointsBeyond index

instance (p : Program) : Decidable p.JumpsForward :=
  Nat.decidableBallLT _ _

/-- No instruction of the program is a jump. -/
def JumpFree (p : Program) : Prop :=
  ∀ i ∈ p.instructions.toList, i.opcode.isJump = false

instance (p : Program) : Decidable p.JumpFree :=
  inferInstanceAs (Decidable (∀ i ∈ p.instructions.toList, _))

variable {p : Program} {i : Instruction} {index : Nat}

theorem JumpsForward.pointsBeyond (h : p.JumpsForward) (hget : p.get? index = some i)
    (hjump : i.opcode.isJump = true) : i.PointsBeyond index := by
  obtain ⟨hlt, rfl⟩ := Array.getElem?_eq_some_iff.mp hget
  exact h index hlt hjump

theorem JumpFree.isJump_eq_false (h : p.JumpFree) (hget : p.get? index = some i) :
    i.opcode.isJump = false := by
  apply h i
  rw [Array.mem_toList_iff]
  exact Array.mem_of_getElem? hget

end Program

namespace Instruction

variable {i : Instruction}

theorem value_of_fixed? {value : Int64} (h : i.operand.bind Operand.fixed? = some value) (s : State)
    (input : Input) : i.value s input = value := by
  obtain ⟨operand, hoperand, hfixed⟩ := Option.bind_eq_some_iff.mp h
  unfold Instruction.value
  rw [hoperand]
  cases operand with
  | literal _ => exact Option.some.inj hfixed
  | register _ => cases hfixed
  | tag _ _ => exact Option.some.inj hfixed

theorem PointsBeyond.value {index : Nat} (h : i.PointsBeyond index) (s : State) (input : Input) :
    (i.value s input).toInt < 0 ∨ index < (i.value s input).toInt := by
  obtain ⟨value, hvalue, hbeyond⟩ := (Option.any_eq_true _ _).mp h
  rw [value_of_fixed? hvalue]
  exact of_decide_eq_true hbeyond

theorem isJump_of_takes {accumulator : Int64} (h : i.Takes accumulator) : i.opcode.isJump = true :=
  isJump_of_jumps (jumps_iff_takes.mpr h)

end Instruction

namespace Machine

variable {m next : Machine} {done : Step}

/-- A step leads to a higher index than that of its instruction. -/
theorem index_lt_pc_step (hforward : m.program.JumpsForward) (h : m.step = (.ok done, next)) :
    done.index < next.state.pc := by
  obtain ⟨i, hget, htransfers⟩ := transfers_of_step h
  rw [htransfers.index]
  by_cases hlands : i.Takes m.state.accumulator ∧ done.fault = none
  · have htarget : (next.state.pc : Int) = (m.valueOf i).toInt :=
      htransfers.pc_of_jump hlands.1 hlands.2
    have hbeyond : (m.valueOf i).toInt < 0 ∨ m.state.pc < (m.valueOf i).toInt :=
      (hforward.pointsBeyond hget (Instruction.isJump_of_takes hlands.1)).value m.state m.input
    omega
  · rw [htransfers.pc_of_passing hlands]
    exact Nat.lt_succ_self _

theorem pc_step_of_jumpFree (hfree : m.program.JumpFree) (h : m.step = (.ok done, next)) :
    next.state.pc = m.state.pc + 1 := by
  obtain ⟨i, hget, htransfers⟩ := transfers_of_step h
  apply htransfers.pc_of_passing
  rintro ⟨htakes, -⟩
  have hjump := Instruction.isJump_of_takes htakes
  rw [hfree.isJump_eq_false hget] at hjump
  cases hjump

/-- A run of a program that jumps forward goes through increasing indices, from where it starts to below
where it ends, and so makes no more steps than there are indices in between. -/
structure Climbs (m : Machine) (executed : List Step) (final : Machine) : Prop where
  increasing : (executed.map Step.index).Pairwise (· < ·)
  from_pc : ∀ done ∈ executed, m.state.pc ≤ done.index
  length_le : m.state.pc + executed.length ≤ final.state.pc

theorem Climbs.nil (m : Machine) : m.Climbs [] m :=
  ⟨List.Pairwise.nil, fun _ hno => absurd hno List.not_mem_nil, Nat.le_refl _⟩

theorem Climbs.cons {executed : List Step} {final : Machine} (h : m.step = (.ok done, next))
    (hlt : done.index < next.state.pc) (hlater : next.Climbs executed final) :
    m.Climbs (done :: executed) final := by
  have hindex := index_step h
  have habove (later : Step) (hmem : later ∈ executed) : done.index < later.index :=
    Nat.lt_of_lt_of_le hlt (hlater.from_pc later hmem)
  refine ⟨?_, ?_, ?_⟩
  · rw [List.map_cons, List.pairwise_cons]
    refine ⟨fun index hmem => ?_, hlater.increasing⟩
    obtain ⟨later, hlater, rfl⟩ := List.mem_map.mp hmem
    exact habove later hlater
  · intro other hmem
    rcases List.mem_cons.mp hmem with rfl | hmem
    · exact Nat.le_of_eq hindex.symm
    · have hother := habove other hmem
      omega
  · have hlength := hlater.length_le
    rw [List.length_cons]
    omega

theorem climbs_steps (hforward : m.program.JumpsForward) (n : Nat) :
    m.Climbs (m.steps n).1 (m.steps n).2 := by
  induction n generalizing m with
  | zero => exact .nil m
  | succ n ih =>
    cases hend : m.atEnd with
    | true =>
      rw [steps_of_atEnd hend]
      exact .nil m
    | false =>
      obtain ⟨done, next, h⟩ := exists_step hend
      have hnext : next.program.JumpsForward := by
        rw [program_step h]
        exact hforward
      rw [steps_of_step h]
      exact .cons h (index_lt_pc_step hforward h) (ih hnext)

/-- Without jumps a run goes from each index to the next one. -/
theorem indices_of_jumpFree (hfree : m.program.JumpFree) (n : Nat) :
    (m.steps n).1.map Step.index = List.range' m.state.pc (m.steps n).1.length ∧
      (m.steps n).2.state.pc = m.state.pc + (m.steps n).1.length := by
  induction n generalizing m with
  | zero => exact ⟨rfl, rfl⟩
  | succ n ih =>
    cases hend : m.atEnd with
    | true =>
      rw [steps_of_atEnd hend]
      exact ⟨rfl, rfl⟩
    | false =>
      obtain ⟨done, next, h⟩ := exists_step hend
      have hnext : next.program.JumpFree := by
        rw [program_step h]
        exact hfree
      obtain ⟨hindices, hpc⟩ := ih hnext
      rw [pc_step_of_jumpFree hfree h] at hindices hpc
      rw [steps_of_step h, List.map_cons, List.length_cons, List.range'_succ, hindices,
        index_step h, hpc]
      exact ⟨rfl, by omega⟩

/-- As many steps as a run has made lead to where it has come. -/
theorem steps_length (m : Machine) (n : Nat) : m.steps (m.steps n).1.length = m.steps n := by
  induction n generalizing m with
  | zero => rfl
  | succ n ih =>
    cases hend : m.atEnd with
    | true => rw [steps_of_atEnd hend, steps_of_atEnd hend]
    | false =>
      obtain ⟨done, next, h⟩ := exists_step hend
      rw [steps_of_step h, List.length_cons, steps_of_step h, ih next]

theorem not_atEnd_of_lt_length {made n : Nat} (h : made < (m.steps n).1.length) :
    (m.steps made).2.atEnd = false := by
  have hstep := step_of_getElem? (List.getElem?_eq_getElem h)
  rw [← Bool.not_eq_true]
  intro hend
  cases hstep.symm.trans (step_of_atEnd hend)

theorem atEnd_steps_size {program : Program} (hm : m.InBounds program)
    (hforward : m.program.JumpsForward) : (m.steps program.size).2.atEnd = true := by
  rcases m.length_steps program.size with hall | hend
  · have hlength := (climbs_steps hforward program.size).length_le
    have hbounds := hm.steps program.size
    have hle := hbounds.pc_le
    apply hbounds.atEnd_iff.mpr
    omega
  · exact hend

/-- A program all of whose jumps go forward ends, whatever its input is. It does so after at most as many
steps as it has instructions, and not before it has made them all; from then on no step can be made.
The indices of the instructions that it executes increase strictly, and they are all indices of the
program if there are no jumps in it. -/
theorem forward_jumps_end (program : Program) (input : Input) (hforward : program.JumpsForward) :
    ∃ count ≤ program.size,
      (∀ made < count, (steps { program, input } made).2.atEnd = false) ∧
      (∀ more, steps { program, input } (count + more) = steps { program, input } count) ∧
      (steps { program, input } count).2.atEnd = true ∧
      (steps { program, input } count).2.step =
        (.error .exhausted, (steps { program, input } count).2) ∧
      (steps { program, input } count).1.length = count ∧
      ((steps { program, input } count).1.map Step.index).Pairwise (· < ·) ∧
      (program.JumpFree →
        (steps { program, input } count).1.map Step.index = List.range program.size) := by
  let m : Machine := { program, input }
  have hm : m.InBounds program := ⟨rfl, Nat.zero_le _⟩
  have hend : (m.steps program.size).2.atEnd = true := atEnd_steps_size hm hforward
  refine ⟨(m.steps program.size).1.length, m.length_steps_le _, fun made hmade => ?_, ?_⟩
  · exact not_atEnd_of_lt_length hmade
  · have hsame : steps { program, input } (m.steps program.size).1.length =
        m.steps program.size := m.steps_length _
    have hagain : (steps { program, input } (m.steps program.size).1.length).2.atEnd = true := by
      rw [hsame]
      exact hend
    refine ⟨steps_add_of_atEnd hagain, hagain, step_of_atEnd hagain, ?_, ?_, ?_⟩
    · rw [hsame]
    · rw [hsame]
      exact (climbs_steps hforward _).increasing
    · intro hfree
      obtain ⟨hindices, hpc⟩ := indices_of_jumpFree (m := m) hfree program.size
      have hsize : (m.steps program.size).2.state.pc = program.size :=
        (hm.steps program.size).atEnd_iff.mp hend
      have hcount : (m.steps program.size).1.length = program.size := by
        rw [hsize] at hpc
        exact (hpc.trans (Nat.zero_add _)).symm
      calc (steps { program, input } (m.steps program.size).1.length).1.map Step.index
        _ = (m.steps program.size).1.map Step.index := by rw [hsame]
        _ = List.range' 0 program.size := by rw [hindices, hcount]
        _ = List.range program.size := List.range_eq_range'.symm

end Machine

/-- Jumps over an instruction by a tag, to nowhere behind the program, not at all, and to the end. -/
def hurdling : Program :=
  .ofInstructions #[⟨.assign, some (.register .input), false, none⟩,
    ⟨.jumpIfPositive, some (.tag "over" 3), false, none⟩,
    ⟨.jump, some (.literal (-4)), false, none⟩, .tag "over",
    ⟨.jump, some (.literal 99), true, none⟩, ⟨.jumpIfZero, some (.literal 7), false, none⟩,
    ⟨.jumpIfPositive, some (.literal 8), false, none⟩, ⟨.push, none, false, none⟩]

def hurdlingRun (count : Nat) : List Step × Machine :=
  Machine.steps { program := hurdling, input := .ofString "a" } count

/-- Reads its operands for their effect and has no jumps. -/
def plodding : Program :=
  .ofInstructions #[⟨.add, some (.register .stackTop), true, none⟩, .tag "on",
    ⟨.nop, some (.register .input), false, none⟩]

theorem hurdling_ends :
    hurdling.JumpsForward ∧ plodding.JumpsForward ∧ plodding.JumpFree ∧
    (∀ made < 6, (hurdlingRun made).2.atEnd = false) ∧ (hurdlingRun 6).2.atEnd = true ∧
    ((hurdlingRun 6).1.map Step.index).Pairwise (· < ·) ∧
    (hurdlingRun 6).1.map Step.index = [0, 1, 3, 4, 5, 6] ∧
    ∃ count, (Machine.steps { program := plodding } count).1.map Step.index = [0, 1, 2] := by
  have hforward : hurdling.JumpsForward := by decide +kernel
  have hplain : plodding.JumpsForward := by decide +kernel
  have hfree : plodding.JumpFree := by decide
  obtain ⟨count, -, hbefore, -, hend, -, -, hincreasing, -⟩ :=
    Machine.forward_jumps_end hurdling (.ofString "a") hforward
  obtain ⟨other, -, -, -, -, -, -, -, hall⟩ := Machine.forward_jumps_end plodding .exhausted hplain
  have hsix : (hurdlingRun 6).2.atEnd = true := by decide +kernel
  have hfive : (hurdlingRun 5).2.atEnd = false := by decide +kernel
  have hcount : count = 6 := by
    rcases Nat.lt_trichotomy count 6 with hlt | heq | hgt
    · have hlater := Machine.steps_add_of_atEnd hend (5 - count)
      rw [Nat.add_sub_of_le (by omega)] at hlater
      have hagain : (hurdlingRun 5).2.atEnd = true := by
        unfold hurdlingRun
        rw [hlater]
        exact hend
      cases hfive.symm.trans hagain
    · exact heq
    · cases hsix.symm.trans (hbefore 6 hgt)
  subst hcount
  exact ⟨hforward, hplain, hfree, hbefore, hend, hincreasing, by decide +kernel, other, hall hfree⟩

end AccumulatorMachine
