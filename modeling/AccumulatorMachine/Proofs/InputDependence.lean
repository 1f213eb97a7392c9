import AccumulatorMachine.Proofs.Scheduling

/-!
A run depends on its input only by the codes that it reads. The count of the codes read is taken from
the instructions that were executed. Inputs that agree on so many codes, with zeros behind the last
character, cannot be told apart: every call returns the same, and leads to the same state and output.
-/
namespace AccumulatorMachine

namespace Input

/-- The codes of a text, followed by zeros without end. -/
def paddedCode (text : String) (index : Nat) : Int64 :=
  (text.toList[index]?.map code).getD 0

/-- The input after so many codes were taken from it. -/
def advance (input : Input) : Nat → Input
  | 0 => input
  | count + 1 => input.next.2.advance count

theorem codes_text (tape : Tape Char) (count : Nat) : (Input.text tape).codes count =
    (List.range count).map fun index => (tape.remaining[index]?.map code).getD 0 := by
  induction count generalizing tape with
  | zero => rfl
  | succ count ih =>
    rw [codes, List.range_succ_eq_map, List.map_cons, List.map_map]
    cases hremaining : tape.remaining with
    | nil =>
      have hnext : (Input.text tape).next = (0, .text tape) := by
        rw [next, Tape.read_of_remaining_eq_nil hremaining]
      rw [hnext, ih tape, hremaining]
      rfl
    | cons c rest =>
      obtain ⟨later, hread, hlater⟩ := Tape.read_of_remaining_eq_cons hremaining
      have hnext : (Input.text tape).next = (code c, .text later) := by
        rw [next, hread]
      rw [hnext, ih later, hlater]
      rfl

theorem codes_ofString (text : String) (count : Nat) :
    (ofString text).codes count = (List.range count).map (paddedCode text) :=
  codes_text _ count

theorem codes_exhausted (count : Nat) : exhausted.codes count = (ofString "").codes count := by
  induction count with
  | zero => rfl
  | succ count ih => exact congrArg (0 :: ·) ih

theorem codes_eq_of_paddedCode {text other : String} {count : Nat}
    (h : ∀ index < count, paddedCode other index = paddedCode text index) :
    (ofString other).codes count = (ofString text).codes count := by
  rw [codes_ofString, codes_ofString]
  apply List.map_congr_left
  intro index hindex
  exact h index (List.mem_range.mp hindex)

/-- Agreement on what is read before and after a code that may be taken. -/
theorem codes_split {input other : Input} {taken : Bool} {count : Nat}
    (h : other.codes (if taken then count + 1 else count) =
      input.codes (if taken then count + 1 else count)) :
    (taken = true → other.next.1 = input.next.1) ∧
      (if taken then other.next.2 else other).codes count =
        (if taken then input.next.2 else input).codes count := by
  cases taken with
  | true =>
    obtain ⟨hcode, hcodes⟩ := List.cons.inj h
    exact ⟨fun _ => hcode, hcodes⟩
  | false => exact ⟨fun hno => absurd hno Bool.false_ne_true, h⟩

theorem paddedCode_append_zeros (text : String) (count index : Nat) :
    paddedCode (text ++ String.ofList (List.replicate count '\x00')) index =
      paddedCode text index := by
  have hzero : code '\x00' = 0 := by decide
  unfold paddedCode
  rw [String.toList_append, String.toList_ofList, List.getElem?_append]
  split
  · rfl
  · rename_i hbehind
    rw [List.getElem?_eq_none (Nat.le_of_not_lt hbehind), List.getElem?_replicate]
    split
    · exact hzero
    · rfl

end Input

/-- What is seen of a call that executes one instruction. -/
structure Observation where
  /-- The step, or a failure at the end of the program. -/
  returned : Except Fault Step
  state : State
  /-- All that was written so far. -/
  written : List Emission
  /-- The state that an observer of breakpoints is shown. -/
  snapshot : Option State

namespace Machine

/-- What a call leaves behind. -/
def afterCall (m : Machine) : Machine :=
  m.step.2

def observation (m : Machine) : Observation where
  returned := m.step.1
  state := m.afterCall.state
  written := m.afterCall.output.items
  snapshot := m.step.1.toOption.bind Step.hit?

/-- What is seen of so many calls. -/
def observations (m : Machine) : Nat → List Observation
  | 0 => []
  | count + 1 => m.observation :: m.afterCall.observations count

/-- The number of codes that the first calls take from the input. -/
def reads (m : Machine) (count : Nat) : Nat :=
  (m.steps count).1.countP fun done => done.instruction.readsInput

variable {m next : Machine} {done : Step}

/-- A step on another input whose next code is the same, if that code is read at all. -/
theorem step_withInput (h : m.step = (.ok done, next)) {other : Input}
    (hread : done.instruction.readsInput = true → other.next.1 = m.input.next.1) :
    { m with input := other }.step = (.ok done, { next with
      input := if done.instruction.readsInput then other.next.2 else other }) := by
  obtain ⟨i, hget, rfl, rfl⟩ := step_eq_ok h
  have heffect : i.execute m.program { m.state with pc := m.state.pc + 1 } other =
      { m.effect i with input := if i.readsInput then other.next.2 else other } :=
    i.execute_withInput _ _ hread
  have hstep := step_of_get? (m := { m with input := other }) hget
  unfold effect at hstep
  rw [heffect] at hstep
  exact hstep

theorem observation_of_step (h : m.step = (.ok done, next)) :
    m.observation = ⟨.ok done, next.state, next.output.items, done.hit?⟩ ∧ m.afterCall = next := by
  unfold observation afterCall
  rw [h]
  exact ⟨rfl, rfl⟩

theorem observation_of_atEnd (h : m.atEnd = true) :
    m.observation = ⟨.error .exhausted, m.state, m.output.items, none⟩ ∧ m.afterCall = m := by
  unfold observation afterCall
  rw [step_of_atEnd h]
  exact ⟨rfl, rfl⟩

theorem reads_of_step (h : m.step = (.ok done, next)) (count : Nat) : m.reads (count + 1) =
    if done.instruction.readsInput then next.reads count + 1 else next.reads count := by
  unfold reads
  rw [steps_of_step h, List.countP_cons]
  split
  · rfl
  · rfl

theorem input_step (h : m.step = (.ok done, next)) :
    next.input = if done.instruction.readsInput then m.input.next.2 else m.input := by
  obtain ⟨i, -, rfl, rfl⟩ := step_eq_ok h
  exact i.input_execute _ _ _

/-- The input moves on by the codes that were read. -/
theorem input_steps (m : Machine) (count : Nat) :
    (m.steps count).2.input = m.input.advance (m.reads count) := by
  induction count generalizing m with
  | zero => rfl
  | succ count ih =>
    cases hend : m.atEnd with
    | true =>
      unfold reads
      rw [steps_of_atEnd hend]
      rfl
    | false =>
      obtain ⟨done, next, h⟩ := exists_step hend
      rw [steps_of_step h, reads_of_step h, ih next, input_step h]
      split
      · rfl
      · rfl

/-- A run on another input with the same codes, as far as they are read, is seen to be the same. -/
theorem observations_withInput (m : Machine) (other : Input) (count : Nat)
    (h : other.codes (m.reads count) = m.input.codes (m.reads count)) :
    { m with input := other }.observations count = m.observations count := by
  induction count generalizing m other with
  | zero => rfl
  | succ count ih =>
    cases hend : m.atEnd with
    | true =>
      have hend' : { m with input := other }.atEnd = true := hend
      have hnone : m.reads count = 0 := by
        unfold reads
        rw [steps_of_atEnd hend]
        rfl
      have hlater := ih m other (by rw [hnone]; rfl)
      obtain ⟨hseen, hafter⟩ := observation_of_atEnd hend
      obtain ⟨hseen', hafter'⟩ := observation_of_atEnd hend'
      rw [observations, observations, hseen, hafter, hseen', hafter', hlater]
    | false =>
      obtain ⟨done, next, hstep⟩ := exists_step hend
      rw [reads_of_step hstep] at h
      obtain ⟨hcode, hcodes⟩ := Input.codes_split h
      rw [← input_step hstep] at hcodes
      obtain ⟨hseen, hafter⟩ := observation_of_step hstep
      obtain ⟨hseen', hafter'⟩ := observation_of_step (step_withInput hstep hcode)
      rw [observations, observations, hseen, hafter, hseen', hafter', ih next _ hcodes]

/-- Of the text of its input a run depends on no more than the codes it reads, with zeros behind the
last character. So no input at all is like an empty text, and zeros at the end of a text are like
none. -/
theorem observations_depend_on_codes_read (program : Program) (text : String) (count : Nat) :
    ((fresh program text).steps count).2.input =
      (Input.ofString text).advance ((fresh program text).reads count) ∧
    (∀ other : String, (∀ index < (fresh program text).reads count,
        Input.paddedCode other index = Input.paddedCode text index) →
      (fresh program other).observations count = (fresh program text).observations count) ∧
    ({ program, input := .exhausted } : Machine).observations count =
      (fresh program "").observations count ∧
    ∀ zeros : Nat, (fresh program (text ++ String.ofList (List.replicate zeros '\x00'))).observations
      count = (fresh program text).observations count := by
  have hagree (other : String) (h : ∀ index < (fresh program text).reads count,
      Input.paddedCode other index = Input.paddedCode text index) :
      (fresh program other).observations count = (fresh program text).observations count := by
    apply observations_withInput (fresh program text) (.ofString other)
    exact Input.codes_eq_of_paddedCode h
  refine ⟨input_steps _ _, hagree, ?_, fun zeros => hagree _ fun index _ => ?_⟩
  · apply observations_withInput (fresh program "") .exhausted
    exact Input.codes_exhausted _
  · exact Input.paddedCode_append_zeros text zeros index

end Machine

/-- Reads a code for its value, one that is of no use and one for a jump that is not taken. The operand
of the tag is not read. -/
def sampling : Program :=
  .ofInstructions #[⟨.assign, some (.register .input), true, none⟩,
    ⟨.push, some (.register .input), false, none⟩,
    ⟨.tag, some (.register .input), false, some "here"⟩,
    ⟨.jumpIfZero, some (.register .input), false, none⟩, ⟨.putChar, none, false, none⟩]

theorem sampling_reads_three :
    (Machine.fresh sampling "ab").reads 5 = 3 ∧
    (∀ index < 3, Input.paddedCode "ab\x00c" index = Input.paddedCode "ab" index) ∧
    (Machine.fresh sampling "ab\x00c").observations 5 = (Machine.fresh sampling "ab").observations 5 := by
  have hreads : (Machine.fresh sampling "ab").reads 5 = 3 := by decide +kernel
  have hcodes : ∀ index < 3, Input.paddedCode "ab\x00c" index = Input.paddedCode "ab" index := by
    decide
  obtain ⟨-, hagree, -⟩ := Machine.observations_depend_on_codes_read sampling "ab" 5
  rw [hreads] at hagree
  exact ⟨hreads, hcodes, hagree _ hcodes⟩

end AccumulatorMachine
