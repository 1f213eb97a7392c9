import AccumulatorMachine.Proofs.Retargeting

/-!
Passages: runs of a known length in which nothing goes wrong. They are put together from shorter
ones, down to single instructions, and a loop is a passage that begins again where it ends. The echo
program is followed in this way through any input.
-/
namespace AccumulatorMachine

namespace Machine

variable {m next last : Machine} {i : Instruction}

/-- The machine makes all of so many steps, none with a fault, and has become the other one. -/
structure Passes (m : Machine) (count : Nat) (next : Machine) : Prop where
  length_eq : (m.steps count).1.length = count
  no_fault : ∀ done ∈ (m.steps count).1, done.fault = none
  machine_eq : (m.steps count).2 = next

theorem Passes.refl (m : Machine) : m.Passes 0 m :=
  ⟨rfl, fun _ hno => (nomatch hno), rfl⟩

theorem Passes.trans {first second : Nat} (h : m.Passes first next)
    (h' : next.Passes second last) : m.Passes (first + second) last := by
  have hsteps := m.steps_add first second
  rw [h.machine_eq] at hsteps
  refine ⟨?_, ?_, ?_⟩
  · rw [hsteps, List.length_append, h.length_eq, h'.length_eq]
  · rw [hsteps]
    intro done hdone
    rcases List.mem_append.mp hdone with hdone | hdone
    · exact h.no_fault done hdone
    · exact h'.no_fault done hdone
  · rw [hsteps]
    exact h'.machine_eq

theorem passes_of_step {done : Step} (h : m.step = (.ok done, next)) (hfault : done.fault = none) :
    m.Passes 1 next := by
  have hsteps : m.steps 1 = ([done], next) := steps_of_step h 0
  refine ⟨?_, ?_, ?_⟩
  · rw [hsteps]
    rfl
  · rw [hsteps]
    intro other hother
    rw [List.mem_singleton.mp hother]
    exact hfault
  · rw [hsteps]

/-- One instruction, by its effect. -/
theorem passes_of_effect {state : State} {input : Input} (emitted : List Emission)
    (hget : m.program.get? m.state.pc = some i)
    (heffect : m.effect i = { state, input, emitted }) :
    m.Passes 1 { m with state, input, output := m.output.put emitted } := by
  have hstep := step_of_get? hget
  rw [heffect] at hstep
  dsimp only at hstep
  rw [Option.map_none, Option.getD_none, List.append_nil] at hstep
  exact passes_of_step hstep rfl

/-- A jump to a tag of the program. -/
theorem passes_of_taken {name : String} {target : Nat} (hget : m.program.get? m.state.pc = some i)
    (htakes : i.Takes m.state.accumulator) (hoperand : i.operand = some (.tag name target))
    (hword : target < Decimal.signedLimit) (hle : target ≤ m.program.size) :
    m.Passes 1 { m with state := { m.state with pc := target } } :=
  passes_of_step (step_of_tag hget htakes hoperand hword hle) rfl

/-- A jump that is not taken. -/
theorem passes_of_skipped {name : String} {target : Nat} (hget : m.program.get? m.state.pc = some i)
    (hjump : i.opcode.isJump = true) (hnot : ¬i.Takes m.state.accumulator)
    (hoperand : i.operand = some (.tag name target)) :
    m.Passes 1 { m with state := { m.state with pc := m.state.pc + 1 } } :=
  passes_of_effect [] hget (effect_of_skipped hjump hnot hoperand)

end Machine

/-- Codes that are written give back the characters they were taken from. -/
theorem Output.contents_put_codes (output : Output) (chars : List Char) :
    (output.put (chars.map (.char ∘ Input.code))).contents =
      output.contents ++ String.ofList chars := by
  have hcodes : chars.map (.char ∘ Input.code) = Emission.ofText (String.ofList chars) := by
    unfold Emission.ofText
    rw [String.toList_ofList]
    rfl
  rw [Output.contents_put, hcodes, Emission.join_text_ofText]

namespace Input

variable {tape : Tape Char}

theorem code_eq_zero_iff (c : Char) : code c = 0 ↔ c = '\x00' := by
  have hcode : (code c).toInt = c.toNat := Emission.toInt_charCode c
  constructor
  · intro h
    rw [h, Int64.toInt_zero] at hcode
    apply Char.toNat_inj.mp
    exact Int.ofNat_inj.mp hcode.symm
  · rintro rfl
    rfl

theorem next_of_nil (h : tape.remaining = []) : (Input.text tape).next = (0, .text tape) := by
  rw [next, Tape.read_of_remaining_eq_nil h]

theorem next_of_cons {c : Char} {rest : List Char} (h : tape.remaining = c :: rest) :
    ∃ later : Tape Char, (Input.text tape).next = (code c, .text later) ∧
      later.remaining = rest := by
  obtain ⟨later, hread, hlater⟩ := Tape.read_of_remaining_eq_cons h
  refine ⟨later, ?_, hlater⟩
  rw [next, hread]

end Input

/-- Writes its input up to the first null character or the end, which it cannot tell apart. -/
def echo : Program :=
  .ofInstructions #[.tag "read", ⟨.assign, some (.register .input), false, none⟩,
    ⟨.jumpIfZero, some (.tag "end" 5), false, none⟩, ⟨.putChar, none, false, none⟩,
    ⟨.jump, some (.tag "read" 0), false, none⟩, .tag "end"]

section Echo

variable (accumulator : Int64) (stack : List Int64) (input : Input) (output : Output)

theorem echo_takes_code :
    Machine.Passes ⟨echo, ⟨accumulator, stack, 0⟩, input, output⟩ 2
      ⟨echo, ⟨input.next.1, stack, 2⟩, input.next.2, output⟩ := by
  have htag : Machine.Passes ⟨echo, ⟨accumulator, stack, 0⟩, input, output⟩ 1
      ⟨echo, ⟨accumulator, stack, 1⟩, input, output⟩ := Machine.passes_of_effect [] rfl rfl
  have hassign : Machine.Passes ⟨echo, ⟨accumulator, stack, 1⟩, input, output⟩ 1
      ⟨echo, ⟨input.next.1, stack, 2⟩, input.next.2, output⟩ := Machine.passes_of_effect [] rfl rfl
  exact htag.trans hassign

/-- A code other than zero is written, and the program is back at its start. -/
theorem echo_goes_round (h : input.next.1 ≠ 0) :
    Machine.Passes ⟨echo, ⟨accumulator, stack, 0⟩, input, output⟩ 5
      ⟨echo, ⟨input.next.1, stack, 0⟩, input.next.2, output.put [.char input.next.1]⟩ := by
  have htaken := echo_takes_code accumulator stack input output
  generalize input.next = taken at h htaken ⊢
  obtain ⟨code, later⟩ := taken
  have hstays : ¬Instruction.Takes ⟨.jumpIfZero, some (.tag "end" 5), false, none⟩ code := by
    rw [← Instruction.jumps_iff_takes]
    simpa [Instruction.jumps] using h
  have hskipped : Machine.Passes ⟨echo, ⟨code, stack, 2⟩, later, output⟩ 1
      ⟨echo, ⟨code, stack, 3⟩, later, output⟩ := Machine.passes_of_skipped rfl rfl hstays rfl
  have hwritten : Machine.Passes ⟨echo, ⟨code, stack, 3⟩, later, output⟩ 1
      ⟨echo, ⟨code, stack, 4⟩, later, output.put [.char code]⟩ :=
    Machine.passes_of_effect [.char code] rfl rfl
  have hback : Machine.Passes ⟨echo, ⟨code, stack, 4⟩, later, output.put [.char code]⟩ 1
      ⟨echo, ⟨code, stack, 0⟩, later, output.put [.char code]⟩ :=
    Machine.passes_of_taken rfl (Or.inl rfl) rfl (by decide) (Nat.zero_le _)
  exact ((htaken.trans hskipped).trans hwritten).trans hback

/-- A zero ends the program. -/
theorem echo_ends (h : input.next.1 = 0) :
    Machine.Passes ⟨echo, ⟨accumulator, stack, 0⟩, input, output⟩ 4
      ⟨echo, ⟨0, stack, 6⟩, input.next.2, output⟩ := by
  have htaken := echo_takes_code accumulator stack input output
  rw [h] at htaken
  have hsize : 5 ≤ echo.size := by decide
  have htakes : Instruction.Takes ⟨.jumpIfZero, some (.tag "end" 5), false, none⟩ 0 := by decide
  have hleaves : Machine.Passes ⟨echo, ⟨0, stack, 2⟩, input.next.2, output⟩ 1
      ⟨echo, ⟨0, stack, 5⟩, input.next.2, output⟩ :=
    Machine.passes_of_taken rfl htakes rfl (by decide) hsize
  have htag : Machine.Passes ⟨echo, ⟨0, stack, 5⟩, input.next.2, output⟩ 1
      ⟨echo, ⟨0, stack, 6⟩, input.next.2, output⟩ := Machine.passes_of_effect [] rfl rfl
  exact (htaken.trans hleaves).trans htag

end Echo

/-- What the echo program writes of the characters that it is given. -/
def beforeNull (chars : List Char) : List Char :=
  chars.takeWhile (· != '\x00')

theorem echo_passes {chars : List Char} {tape : Tape Char} (h : tape.remaining = chars)
    (accumulator : Int64) (stack : List Int64) (output : Output) :
    ∃ rest, Machine.Passes ⟨echo, ⟨accumulator, stack, 0⟩, .text tape, output⟩
      (5 * (beforeNull chars).length + 4)
      ⟨echo, ⟨0, stack, 6⟩, rest, output.put ((beforeNull chars).map (.char ∘ Input.code))⟩ := by
  -- By induction on what is left of the input: once round the loop for each character.
  induction chars generalizing tape accumulator output with
  | nil =>
    have hzero : (Input.text tape).next.1 = 0 := by rw [Input.next_of_nil h]
    exact ⟨_, echo_ends accumulator stack (.text tape) output hzero⟩
  | cons c chars ih =>
    obtain ⟨later, hnext, hlater⟩ := Input.next_of_cons h
    by_cases hc : c = '\x00'
    · have hzero : (Input.text tape).next.1 = 0 := by
        rw [hnext]
        exact (Input.code_eq_zero_iff c).mpr hc
      have hnone : beforeNull (c :: chars) = [] := by
        rw [hc]
        rfl
      rw [hnone]
      exact ⟨_, echo_ends accumulator stack (.text tape) output hzero⟩
    · have hcode : (Input.text tape).next.1 ≠ 0 := by
        rw [hnext]
        exact fun hzero => hc ((Input.code_eq_zero_iff c).mp hzero)
      have hround := echo_goes_round accumulator stack (.text tape) output hcode
      rw [hnext] at hround
      obtain ⟨rest, hloop⟩ := ih hlater (Input.code c) (output.put [.char (Input.code c)])
      refine ⟨rest, ?_⟩
      have hall := hround.trans hloop
      have hkept : beforeNull (c :: chars) = c :: beforeNull chars := by
        unfold beforeNull
        rw [List.takeWhile_cons, if_pos (by simpa using hc)]
      have hcount : 5 * (beforeNull chars).length.succ + 4 =
          5 + (5 * (beforeNull chars).length + 4) := by omega
      rw [Output.put_put] at hall
      rw [hkept, List.length_cons, hcount]
      exact hall

theorem longestStart_beforeNull (chars : List Char) :
    LongestStart (fun run => '\x00' ∉ run) (beforeNull chars) chars := by
  have hform (run : List Char) : (∀ c ∈ run, (c != '\x00') = true) ↔ '\x00' ∉ run := by
    constructor
    · intro h hmem
      exact absurd (h _ hmem) (by decide)
    · intro h c hc
      exact bne_iff_ne.mpr fun hnull => h (hnull ▸ hc)
  have hlongest := longestStart_takeWhile (· != '\x00') chars
  refine ⟨hlongest.starts, (hform _).mp hlongest.has_form, fun other hother hno => ?_⟩
  exact hlongest.longest other hother ((hform other).mpr hno)

/-- The echo program comes to its end on every input, without a fault. It has then written the
longest start of the input that has no null character, in five steps for each of its characters and
four steps more, and leaves a zero in the accumulator and nothing on the stack. -/
theorem echo_writes_input_before_null :
    assemble ":read: givI jez:end: oc jmp:read: :end:" = .ok echo ∧
    ∀ text : String, ∃ kept final,
      LongestStart (fun run => '\x00' ∉ run) kept text.toList ∧
      (Machine.fresh echo text).Passes (5 * kept.length + 4) final ∧
      final.atEnd = true ∧ final.output.contents = String.ofList kept ∧
      final.state.accumulator = 0 ∧ final.state.stack = [] := by
  refine ⟨by decide +kernel, fun text => ?_⟩
  have hall : (Tape.ofArray text.toList.toArray).remaining = text.toList := rfl
  obtain ⟨rest, hpasses⟩ := echo_passes hall 0 [] {}
  refine ⟨beforeNull text.toList, _, longestStart_beforeNull _, hpasses, rfl, ?_, rfl, rfl⟩
  rw [Output.contents_put_codes]
  exact String.empty_append

end AccumulatorMachine
