import AccumulatorMachine.Machine.Step
import Mathlib.Data.List.Infix

/-!
What executing an instruction can do, and what a run of instructions keeps. An instruction goes on to
the next one unless it takes a jump, and a jump that leads out of the program is a fault. What is
written tells which instructions were executed, and with which values.
-/
namespace AccumulatorMachine

theorem okPair_inj {ε α σ : Type} {a b : α} {s t : σ}
    (h : ((.ok a : Except ε α), s) = (.ok b, t)) : a = b ∧ s = t :=
  ⟨Except.ok.inj (Prod.mk.inj h).1, (Prod.mk.inj h).2⟩

/-- A place in a program of the given size where a jump can go. -/
def Lands (size : Nat) (target : Int64) : Prop :=
  0 ≤ target.toInt ∧ target.toInt ≤ size

instance (size : Nat) (target : Int64) : Decidable (Lands size target) :=
  inferInstanceAs (Decidable (_ ∧ _))

/-- A jump goes to its target if it lands, and is a fault otherwise. -/
theorem Effect.jump_eq (p : Program) (target : Int64) (s : State) (input : Input) :
    Effect.jump p target s input =
      if Lands p.size target then { state := { s with pc := target.toInt.toNat }, input }
      else { state := s, input, fault := some (.badJump target p.size) } := by
  unfold Effect.jump
  dsimp only
  by_cases hneg : target < 0
  · have hnot : ¬Lands p.size target := fun h =>
      absurd h.1 (Int.not_le.mpr (Int64.lt_iff_toInt_lt.mp hneg))
    rw [if_pos hneg, if_neg hnot]
  · have hnonneg : 0 ≤ target.toInt := Int.not_lt.mp fun h => hneg (Int64.lt_iff_toInt_lt.mpr h)
    rw [if_neg hneg]
    by_cases hle : target.toInt.toNat ≤ p.size
    · rw [s.goTo_of_le hle, if_pos ⟨hnonneg, by omega⟩]
    · rw [s.goTo_of_lt (Nat.not_le.mp hle), if_neg fun h => hle (by have := h.2; omega)]

/-- What an opcode writes. -/
def Opcode.emits (op : Opcode) (accumulator : Int64) : List Emission :=
  match op with
  | .putChar => [.char accumulator]
  | .putNumber => [.number accumulator]
  | _ => []

namespace Instruction

/-- Executing the instruction takes a code from the input. Operands are read for their effect too, but
not those of a tag. -/
def readsInput (i : Instruction) : Bool :=
  !i.isTag && decide (i.operand = some (.register .input))

theorem pop_frame (s : State) : s.pop.2.accumulator = s.accumulator ∧ s.pop.2.pc = s.pc := by
  unfold State.pop
  split
  · exact ⟨rfl, rfl⟩
  · exact ⟨rfl, rfl⟩

/-- Reading an operand changes neither the accumulator nor the place in the program. -/
theorem operandValue_frame (i : Instruction) (s : State) (input : Input) :
    (i.operandValue s input).2.1.accumulator = s.accumulator ∧
      (i.operandValue s input).2.1.pc = s.pc := by
  unfold operandValue
  split
  · rename_i operand _
    cases operand with
    | literal _ | tag _ _ => exact ⟨rfl, rfl⟩
    | register r =>
      cases r with
      | stackTop => exact pop_frame s
      | accumulator | negated | input => exact ⟨rfl, rfl⟩
  · exact ⟨rfl, rfl⟩

variable {p : Program} {i : Instruction} {s : State} {input : Input}

theorem perform_of_jumps {op : Opcode} (h : jumps op s.accumulator = true) (value : Int64) :
    perform p op value s input = .jump p value s input := by
  cases op with
  | jump | jumpIfPositive | jumpIfZero | jumpIfNegative => rw [perform, if_pos h]
  | _ => cases h

theorem perform_of_not_jumps {op : Opcode} (h : jumps op s.accumulator = false) (value : Int64) :
    (perform p op value s input).state.pc = s.pc ∧
      (perform p op value s input).fault = none ∧
      (perform p op value s input).emitted = op.emits s.accumulator := by
  cases op with
  | jump | jumpIfPositive | jumpIfZero | jumpIfNegative =>
    rw [perform, h, if_neg Bool.false_ne_true]
    exact ⟨rfl, rfl, rfl⟩
  | pop => exact ⟨(pop_frame s).2, rfl, rfl⟩
  | _ => exact ⟨rfl, rfl, rfl⟩

theorem emits_of_jumps {op : Opcode} {accumulator : Int64} (h : jumps op accumulator = true) :
    op.emits accumulator = [] := by
  cases op with
  | jump | jumpIfPositive | jumpIfZero | jumpIfNegative => rfl
  | _ => cases h

/-- An instruction whose opcode jumps goes where its operand says. -/
theorem execute_of_jumps (h : jumps i.opcode s.accumulator = true) :
    i.execute p s input = .jump p (i.operandValue s input).1 (i.operandValue s input).2.1
      (i.operandValue s input).2.2 := by
  have htag : ¬i.isTag = true := by
    unfold isTag
    cases hop : i.opcode with
    | tag =>
      rw [hop] at h
      cases h
    | _ => exact Bool.false_ne_true
  unfold execute
  rw [if_neg htag]
  apply perform_of_jumps
  rw [(i.operandValue_frame s input).1]
  exact h

/-- Any other instruction stays before the next one, and writes what its opcode says. -/
theorem execute_of_not_jumps (h : jumps i.opcode s.accumulator = false) :
    (i.execute p s input).state.pc = s.pc ∧ (i.execute p s input).fault = none ∧
      (i.execute p s input).emitted = i.opcode.emits s.accumulator := by
  obtain ⟨haccumulator, hpc⟩ := i.operandValue_frame s input
  unfold execute
  by_cases htag : i.isTag = true
  · rw [if_pos htag]
    refine ⟨rfl, rfl, ?_⟩
    unfold isTag at htag
    cases hop : i.opcode with
    | tag => rfl
    | _ =>
      rw [hop] at htag
      cases htag
  · rw [if_neg htag]
    dsimp only
    rw [← haccumulator] at h ⊢
    rw [← hpc]
    exact perform_of_not_jumps h _

theorem emitted_execute : (i.execute p s input).emitted = i.opcode.emits s.accumulator := by
  cases h : jumps i.opcode s.accumulator with
  | false => exact (execute_of_not_jumps h).2.2
  | true =>
    rw [execute_of_jumps h, emits_of_jumps h, Effect.jump_eq]
    split
    · rfl
    · rfl

theorem pc_execute_le (h : s.pc ≤ p.size) : (i.execute p s input).state.pc ≤ p.size := by
  cases hjumps : jumps i.opcode s.accumulator with
  | false =>
    rw [(execute_of_not_jumps hjumps).1]
    exact h
  | true =>
    rw [execute_of_jumps hjumps, Effect.jump_eq]
    split
    · rename_i hlands
      have hle := hlands.2
      dsimp only
      omega
    · dsimp only
      rw [(i.operandValue_frame s input).2]
      exact h

theorem fault_execute_eq_none
    (h : jumps i.opcode s.accumulator = true → Lands p.size (i.operandValue s input).1) :
    (i.execute p s input).fault = none := by
  cases hjumps : jumps i.opcode s.accumulator with
  | false => exact (execute_of_not_jumps hjumps).2.1
  | true =>
    rw [execute_of_jumps hjumps, Effect.jump_eq, if_pos (h hjumps)]

theorem perform_withInput (p : Program) (op : Opcode) (value : Int64) (s : State)
    (input other : Input) : perform p op value s other =
      { perform p op value s input with input := other } := by
  have hjump : Effect.jump p value s other =
      { Effect.jump p value s input with input := other } := by
    rw [Effect.jump_eq, Effect.jump_eq]
    split
    · rfl
    · rfl
  cases op with
  | jump | jumpIfPositive | jumpIfZero | jumpIfNegative =>
    rw [perform, perform]
    split
    · exact hjump
    · rfl
  | _ => rfl

/-- An instruction sees of its program nothing but the size. -/
theorem execute_of_size_eq {q : Program} (h : q.size = p.size) (i : Instruction) (s : State)
    (input : Input) : i.execute q s input = i.execute p s input := by
  have hjump (value : Int64) (s : State) (input : Input) :
      Effect.jump q value s input = .jump p value s input := by
    rw [Effect.jump_eq, Effect.jump_eq, h]
  have hperform (op : Opcode) (value : Int64) (s : State) (input : Input) :
      perform q op value s input = perform p op value s input := by
    cases op with
    | jump | jumpIfPositive | jumpIfZero | jumpIfNegative => rw [perform, perform, hjump]
    | _ => rfl
  unfold execute
  dsimp only
  rw [hperform]

theorem operandValue_withInput (i : Instruction) (s : State) {input other : Input}
    (h : i.operand = some (.register .input) → other.next.1 = input.next.1) :
    i.operandValue s other = ((i.operandValue s input).1, (i.operandValue s input).2.1,
      if i.operand = some (.register .input) then other.next.2 else other) := by
  unfold operandValue
  cases hoperand : i.operand with
  | none => rfl
  | some operand =>
    cases operand with
    | literal _ | tag _ _ => rfl
    | register r =>
      cases r with
      | input => exact congrArg (·, s, other.next.2) (h hoperand)
      | accumulator | negated | stackTop => rfl

/-- An instruction looks at the input only to take the next code, and only if its operand says so. -/
theorem execute_withInput (p : Program) (i : Instruction) (s : State) {input other : Input}
    (h : i.readsInput = true → other.next.1 = input.next.1) :
    i.execute p s other =
      { i.execute p s input with input := if i.readsInput then other.next.2 else other } := by
  unfold execute
  unfold readsInput at h ⊢
  cases htag : i.isTag with
  | true => rfl
  | false =>
    have hvalue : i.operand = some (.register .input) → other.next.1 = input.next.1 := by
      intro hoperand
      apply h
      simp [htag, hoperand]
    rw [if_neg Bool.false_ne_true, if_neg Bool.false_ne_true]
    dsimp only
    rw [operandValue_withInput i s hvalue, perform_withInput p i.opcode _ _
      (i.operandValue s input).2.2]
    simp only [Bool.not_false, Bool.true_and, decide_eq_true_eq]

theorem input_execute (p : Program) (i : Instruction) (s : State) (input : Input) :
    (i.execute p s input).input = if i.readsInput then input.next.2 else input := by
  have hsame : input.next.1 = input.next.1 := rfl
  exact congrArg Effect.input (i.execute_withInput p s fun _ => hsame)

end Instruction

theorem Output.put_put (o : Output) (first later : List Emission) :
    (o.put first).put later = o.put (first ++ later) := by
  unfold Output.put
  rw [List.reverse_append, List.append_assoc]

/-- Reading does not change where an input begins. -/
theorem Input.rewind_next (input : Input) : input.next.2.rewind = input.rewind := by
  cases input with
  | exhausted => rfl
  | text tape =>
    by_cases hlt : tape.position < tape.items.size
    · simp [Input.next, Tape.read, hlt, Input.rewind, Tape.rewind]
    · simp [Input.next, Tape.read, hlt]

namespace Step

/-- What the instruction of a step writes. -/
def emissions (step : Step) : List Emission :=
  step.instruction.opcode.emits step.before.accumulator

/-- The report of a fault. -/
def report (step : Step) : List Emission :=
  (step.fault.map fun fault => Emission.ofText fault.message).getD []

end Step

namespace Machine

/-- What an instruction brings about in a machine that has just fetched it. -/
def effect (m : Machine) (i : Instruction) : Effect :=
  i.execute m.program { m.state with pc := m.state.pc + 1 } m.input

variable {m next : Machine} {done : Step}

theorem exists_step (h : m.atEnd = false) : ∃ done next, m.step = (.ok done, next) := by
  have hlt : m.state.pc < m.program.instructions.size :=
    Nat.lt_of_not_le (of_decide_eq_false h)
  have hget : m.program.get? m.state.pc = some m.program.instructions[m.state.pc] :=
    Array.getElem?_eq_getElem hlt
  unfold Machine.step
  rw [State.fetch_of_get? hget]
  exact ⟨_, _, rfl⟩

/-- The step that executes an instruction. -/
theorem step_of_get? {i : Instruction} (h : m.program.get? m.state.pc = some i) :
    m.step = (.ok ⟨m.state.pc, i, m.state, (m.effect i).state, (m.effect i).fault⟩,
      ⟨m.program, (m.effect i).state, (m.effect i).input, m.output.put ((m.effect i).emitted ++
        ((m.effect i).fault.map fun fault => Emission.ofText fault.message).getD [])⟩) := by
  unfold Machine.step
  rw [State.fetch_of_get? h]
  rfl

/-- All that a step does. -/
theorem step_eq_ok (h : m.step = (.ok done, next)) :
    ∃ i, m.program.get? m.state.pc = some i ∧
      done = ⟨m.state.pc, i, m.state, (m.effect i).state, (m.effect i).fault⟩ ∧
      next = ⟨m.program, (m.effect i).state, (m.effect i).input,
        m.output.put ((m.effect i).emitted ++ done.report)⟩ := by
  cases hget : m.program.get? m.state.pc with
  | none =>
    unfold Machine.step at h
    rw [State.fetch_of_get?_none hget] at h
    cases h
  | some i =>
    rw [step_of_get? hget] at h
    obtain ⟨rfl, rfl⟩ := okPair_inj h
    exact ⟨i, rfl, rfl, rfl⟩

theorem step_of_atEnd (h : m.atEnd = true) : m.step = (.error .exhausted, m) := by
  have hnone : m.program.get? m.state.pc = none :=
    Array.getElem?_eq_none (of_decide_eq_true h)
  unfold Machine.step
  rw [State.fetch_of_get?_none hnone]

/-- A step fails only at the end of the program, and then it changes nothing. -/
theorem step_eq_error_iff {fault : Fault} :
    m.step = (.error fault, next) ↔ m.atEnd = true ∧ fault = .exhausted ∧ next = m := by
  constructor
  · intro h
    cases hend : m.atEnd with
    | false =>
      obtain ⟨done, after, hstep⟩ := exists_step hend
      cases hstep.symm.trans h
    | true =>
      rw [step_of_atEnd hend] at h
      obtain ⟨hfault, hnext⟩ := Prod.mk.inj h
      exact ⟨rfl, (Except.error.inj hfault).symm, hnext.symm⟩
  · rintro ⟨hend, rfl, rfl⟩
    exact step_of_atEnd hend

/-- What a machine does depends on its output only by what it adds to it. -/
theorem step_output (h : m.step = (.ok done, next)) :
    ∃ written, next.output = m.output.put written ∧
      ∀ o, { m with output := o }.step = (.ok done, { next with output := o.put written }) := by
  unfold Machine.step at h
  split at h
  · cases h
  · rename_i i fetched hfetch
    obtain ⟨rfl, rfl⟩ := okPair_inj h
    refine ⟨_, rfl, fun o => ?_⟩
    unfold Machine.step
    dsimp only
    rw [hfetch]

theorem index_step (h : m.step = (.ok done, next)) : done.index = m.state.pc := by
  obtain ⟨i, -, rfl, -⟩ := step_eq_ok h
  rfl

theorem after_step (h : m.step = (.ok done, next)) : done.after = next.state := by
  obtain ⟨i, -, rfl, rfl⟩ := step_eq_ok h
  rfl

theorem program_step (h : m.step = (.ok done, next)) : next.program = m.program := by
  obtain ⟨i, -, -, rfl⟩ := step_eq_ok h
  rfl

theorem pc_step_le (h : m.step = (.ok done, next)) : next.state.pc ≤ next.program.size := by
  obtain ⟨i, hget, -, rfl⟩ := step_eq_ok h
  have hlt : m.state.pc < m.program.size := (Array.getElem?_eq_some_iff.mp hget).1
  exact Instruction.pc_execute_le hlt

theorem rewind_step (h : m.step = (.ok done, next)) : next.input.rewind = m.input.rewind := by
  obtain ⟨i, -, -, rfl⟩ := step_eq_ok h
  have hinput : (m.effect i).input = if i.readsInput then m.input.next.2 else m.input :=
    i.input_execute _ _ _
  rw [hinput]
  split
  · exact m.input.rewind_next
  · rfl

theorem items_step (h : m.step = (.ok done, next)) :
    next.output.items = m.output.items ++ (done.emissions ++ done.report) := by
  obtain ⟨i, -, hdone, rfl⟩ := step_eq_ok h
  have hemitted : (m.effect i).emitted = done.emissions := by
    rw [hdone]
    exact Instruction.emitted_execute
  rw [Output.items_put, hemitted]

theorem steps_of_step (h : m.step = (.ok done, next)) (n : Nat) :
    m.steps (n + 1) = (done :: (next.steps n).1, (next.steps n).2) := by
  rw [steps, h]

theorem steps_of_atEnd (h : m.atEnd = true) (n : Nat) : m.steps n = ([], m) := by
  cases n with
  | zero => rfl
  | succ n => rw [steps, step_of_atEnd h]

/-- What every step keeps holds after any number of them, and what every step gives is true of each. -/
theorem forall_steps {keeps : Machine → Prop} {gives : Step → Prop}
    (hstep : ∀ m done next, keeps m → m.step = (.ok done, next) → gives done ∧ keeps next)
    (hm : keeps m) (n : Nat) :
    (∀ done ∈ (m.steps n).1, gives done) ∧ keeps (m.steps n).2 := by
  induction n generalizing m with
  | zero => exact ⟨fun _ hno => (nomatch hno), hm⟩
  | succ n ih =>
    cases hend : m.atEnd with
    | true =>
      rw [steps_of_atEnd hend]
      exact ⟨fun _ hno => (nomatch hno), hm⟩
    | false =>
      obtain ⟨first, next, h⟩ := exists_step hend
      obtain ⟨hfirst, hnext⟩ := hstep m first next hm h
      obtain ⟨hlater, hlast⟩ := ih hnext
      rw [steps_of_step h]
      refine ⟨fun done hdone => ?_, hlast⟩
      rcases List.mem_cons.mp hdone with rfl | hdone
      · exact hfirst
      · exact hlater done hdone

/-- The program counter stands at an instruction of the program, or at its end. -/
structure InBounds (program : Program) (m : Machine) : Prop where
  program_eq : m.program = program
  pc_le : m.state.pc ≤ program.size

theorem InBounds.steps {program : Program} (h : m.InBounds program) (n : Nat) :
    (m.steps n).2.InBounds program := by
  have hkept (m : Machine) (done : Step) (next : Machine) (hm : m.InBounds program)
      (hstep : m.step = (.ok done, next)) : True ∧ next.InBounds program := by
    have hsame : next.program = program := (program_step hstep).trans hm.program_eq
    have hle := pc_step_le hstep
    rw [hsame] at hle
    exact ⟨trivial, hsame, hle⟩
  exact (forall_steps hkept h n).2

theorem InBounds.atEnd_iff {program : Program} (h : m.InBounds program) :
    m.atEnd = true ↔ m.state.pc = program.size := by
  have hle := h.pc_le
  unfold Machine.atEnd State.atEnd
  rw [decide_eq_true_iff, h.program_eq]
  omega

theorem length_steps_le (m : Machine) (n : Nat) : (m.steps n).1.length ≤ n := by
  induction n generalizing m with
  | zero => exact Nat.le_refl _
  | succ n ih =>
    cases hend : m.atEnd with
    | true =>
      rw [steps_of_atEnd hend]
      exact Nat.zero_le _
    | false =>
      obtain ⟨done, next, h⟩ := exists_step hend
      rw [steps_of_step h]
      exact Nat.succ_le_succ (ih next)

/-- A run makes as many steps as it was asked for, unless it comes to the end. -/
theorem length_steps (m : Machine) (n : Nat) :
    (m.steps n).1.length = n ∨ (m.steps n).2.atEnd = true := by
  induction n generalizing m with
  | zero => exact Or.inl rfl
  | succ n ih =>
    cases hend : m.atEnd with
    | true =>
      rw [steps_of_atEnd hend]
      exact Or.inr hend
    | false =>
      obtain ⟨done, next, h⟩ := exists_step hend
      rw [steps_of_step h, List.length_cons]
      exact (ih next).imp_left fun hlen => by rw [hlen]

/-- The output tells all that the steps of a run wrote, in their order. -/
theorem items_steps (m : Machine) (n : Nat) : (m.steps n).2.output.items =
    m.output.items ++ (m.steps n).1.flatMap fun done => done.emissions ++ done.report := by
  induction n generalizing m with
  | zero => exact (List.append_nil _).symm
  | succ n ih =>
    cases hend : m.atEnd with
    | true =>
      rw [steps_of_atEnd hend]
      exact (List.append_nil _).symm
    | false =>
      obtain ⟨done, next, h⟩ := exists_step hend
      rw [steps_of_step h, ih next, items_step h, List.flatMap_cons]
      exact List.append_assoc ..

/-- A run can be interrupted. -/
theorem steps_add (m : Machine) (first second : Nat) : m.steps (first + second) =
    ((m.steps first).1 ++ ((m.steps first).2.steps second).1,
      ((m.steps first).2.steps second).2) := by
  induction first generalizing m with
  | zero =>
    rw [Nat.zero_add]
    rfl
  | succ first ih =>
    cases hend : m.atEnd with
    | true => rw [steps_of_atEnd hend, steps_of_atEnd hend, steps_of_atEnd hend, List.append_nil]
    | false =>
      obtain ⟨done, next, h⟩ := exists_step hend
      rw [Nat.add_right_comm, steps_of_step h, steps_of_step h, ih next]
      rfl

theorem steps_add_of_atEnd {n : Nat} (h : (m.steps n).2.atEnd = true) (more : Nat) :
    m.steps (n + more) = m.steps n := by
  rw [steps_add, steps_of_atEnd h, List.append_nil]

theorem steps_eq_of_atEnd {n k : Nat} (hn : (m.steps n).2.atEnd = true)
    (hk : (m.steps k).2.atEnd = true) : m.steps n = m.steps k := by
  rcases Nat.le_total n k with hle | hle
  · rw [← Nat.add_sub_of_le hle, steps_add_of_atEnd hn]
  · rw [← Nat.add_sub_of_le hle, steps_add_of_atEnd hk]

/-- The last step leads to the state a run ends in. -/
theorem state_steps (m : Machine) (count : Nat) : (m.steps count).2.state =
    ((m.steps count).1.getLast?.map Step.after).getD m.state := by
  induction count generalizing m with
  | zero => rfl
  | succ count ih =>
    cases hend : m.atEnd with
    | true =>
      rw [steps_of_atEnd hend]
      rfl
    | false =>
      obtain ⟨done, next, h⟩ := exists_step hend
      rw [steps_of_step h, ih next, List.getLast?_cons, ← after_step h]
      cases (next.steps count).1.getLast? with
      | none => rfl
      | some last => rfl

/-- Each step of a run is one of the machine that the steps before it lead to. -/
theorem step_of_getElem? {count made : Nat} (h : (m.steps count).1[made]? = some done) :
    (m.steps made).2.step = (.ok done, (m.steps (made + 1)).2) := by
  induction count generalizing m made with
  | zero => cases h
  | succ count ih =>
    cases hend : m.atEnd with
    | true =>
      rw [steps_of_atEnd hend] at h
      cases h
    | false =>
      obtain ⟨first, next, hstep⟩ := exists_step hend
      rw [steps_of_step hstep] at h
      cases made with
      | zero =>
        obtain rfl := Option.some.inj h
        rw [steps_of_step hstep]
        exact hstep
      | succ made =>
        rw [steps_of_step hstep, steps_of_step hstep]
        exact ih h

/-- What a run does depends on the output only by what it adds to it. -/
theorem steps_output (m : Machine) (n : Nat) :
    ∃ written, (m.steps n).2.output = m.output.put written ∧
      ∀ o, { m with output := o }.steps n =
        ((m.steps n).1, { (m.steps n).2 with output := o.put written }) := by
  induction n generalizing m with
  | zero => exact ⟨[], rfl, fun o => rfl⟩
  | succ n ih =>
    cases hend : m.atEnd with
    | true =>
      refine ⟨[], ?_, fun o => ?_⟩
      · rw [steps_of_atEnd hend]
        rfl
      · have hsame : { m with output := o }.atEnd = true := hend
        rw [steps_of_atEnd hend, steps_of_atEnd hsame]
        rfl
    | false =>
      obtain ⟨done, next, h⟩ := exists_step hend
      obtain ⟨first, hfirst, hsame⟩ := step_output h
      obtain ⟨later, hlater, hrest⟩ := ih next
      refine ⟨first ++ later, ?_, fun o => ?_⟩
      · rw [steps_of_step h, hlater, hfirst, Output.put_put]
      · rw [steps_of_step h, steps_of_step (hsame o), ← Output.put_put]
        have hthen := hrest (o.put first)
        rw [hthen]

end Machine

end AccumulatorMachine
