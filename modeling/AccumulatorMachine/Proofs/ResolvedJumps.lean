import AccumulatorMachine.Proofs.CanonicalSource
import AccumulatorMachine.Proofs.Execution

/-!
Programs that never fault. A jump by a tag goes to the index that assembly gave the tag, which is one
of the program; a jump by a number may be checked beforehand. With no other jumps there is nothing in
the output but what the program itself writes.
-/
namespace AccumulatorMachine

def Opcode.isJump : Opcode → Bool
  | .jump | .jumpIfPositive | .jumpIfZero | .jumpIfNegative => true
  | _ => false

/-- An operand that leads a jump into the program as it is written: a tag, or a number that is an
index or the size. -/
def Operand.isResolved (size : Nat) : Operand → Bool
  | .literal value => decide (Lands size value)
  | .register _ => false
  | .tag _ _ => true

/-- Every jump of the program has an operand that is resolved. -/
def Program.JumpsResolved (p : Program) : Prop :=
  ∀ i ∈ p.instructions.toList, i.opcode.isJump = true →
    i.operand.any (Operand.isResolved p.size) = true

instance (p : Program) : Decidable p.JumpsResolved :=
  inferInstanceAs (Decidable (∀ i ∈ p.instructions.toList, _))

theorem Spelling.length_le_text (spelling : Spelling) :
    spelling.length ≤ (Spelling.text spelling).length := by
  induction spelling with
  | nil => exact Nat.le_refl _
  | cons b rest ih =>
    have hpos : 0 < b.text.length := List.length_pos_iff.mpr b.text_ne_nil
    rw [Spelling.text_cons, List.length_append, List.length_cons]
    omega

theorem Spelling.length_blocks (spelling : Spelling) (position : Nat) :
    (Spelling.blocks position spelling).length = spelling.length := by
  induction spelling generalizing position with
  | nil => rfl
  | cons b rest ih => rw [Spelling.blocks, List.length_cons, ih, List.length_cons]

/-- A program has no more instructions than its source has characters. -/
theorem size_le_length_of_assemble {source : String} {p : Program} (h : assemble source = .ok p) :
    p.size ≤ source.length := by
  obtain ⟨spelling, htext, hall, -⟩ := assemble_eq_ok_iff.mp h
  have hstrip : (Source.strip source).length ≤ source.toList.length :=
    (Source.select_sublist _ _).length_le
  calc p.size
    _ = (Spelling.blocks 0 spelling).length := by
      rw [hall.length_eq, Array.length_toList]
      rfl
    _ ≤ (Spelling.text spelling).length := by
      rw [spelling.length_blocks]
      exact spelling.length_le_text
    _ ≤ source.toList.length := by
      rw [← htext]
      exact hstrip
    _ = source.length := String.length_toList

theorem isJump_of_jumps {op : Opcode} {accumulator : Int64}
    (h : Instruction.jumps op accumulator = true) : op.isJump = true := by
  cases op with
  | jump | jumpIfPositive | jumpIfZero | jumpIfNegative => rfl
  | _ => cases h

/-- An index that is a word is read back from it unchanged. -/
theorem lands_ofNat {size target : Nat} (hsize : size < Decimal.signedLimit) (h : target ≤ size) :
    Lands size (Int64.ofNat target) := by
  have hword : (Int64.ofNat target).toInt = target :=
    Int64.toInt_ofNat_of_lt (Nat.lt_of_le_of_lt h hsize)
  unfold Lands
  rw [hword]
  omega

/-- A jump of an assembled program lands, if its operand is resolved. -/
theorem Program.WellFormed.lands {p : Program} (wf : p.WellFormed) (hresolved : p.JumpsResolved)
    (hsize : p.size < Decimal.signedLimit) {i : Instruction} (hi : i ∈ p.instructions.toList)
    {s : State} {input : Input} (hjumps : Instruction.jumps i.opcode s.accumulator = true) :
    Lands p.size (i.operandValue s input).1 := by
  have hany := hresolved i hi (isJump_of_jumps hjumps)
  obtain ⟨operand, hoperand, hlands⟩ := (Option.any_eq_true _ _).mp hany
  unfold Instruction.operandValue
  rw [hoperand]
  cases operand with
  | literal value => exact of_decide_eq_true hlands
  | register r => cases hlands
  | tag name target =>
    have hlt : target < p.tagNames.length := (wf.target i hi name target hoperand).lt_length
    rw [p.length_tagNames] at hlt
    exact lands_ofNat hsize (Nat.le_of_lt hlt)

/-- An assembled program whose jumps go by tags, or by numbers from zero up to its size, never faults.
Whatever it reads and however long it runs, its output holds what its own instructions wrote and
nothing else, and it fails to go on at its end only. A source has fewer characters than there are
positive words, so that each index of its program is a word. -/
theorem Machine.resolved_jumps_never_fault {source : String} {p : Program}
    (hlength : source.length < Decimal.signedLimit) (hp : assemble source = .ok p)
    (hresolved : p.JumpsResolved) (input : Input) (n : Nat) {executed : List Step}
    {final : Machine} (hrun : Machine.steps { program := p, input } n = (executed, final)) :
    (∀ done ∈ executed, done.fault = none) ∧
    final.output.items = executed.flatMap Step.emissions ∧
    (executed.length = n ∨ final.atEnd = true) ∧
    ∀ fault next, final.step = (.error fault, next) ↔
      final.atEnd = true ∧ fault = .exhausted ∧ next = final := by
  have wf : p.WellFormed := wellFormed_of_assemble hp
  have hsize : p.size < Decimal.signedLimit :=
    Nat.lt_of_le_of_lt (size_le_length_of_assemble hp) hlength
  have hstep (m : Machine) (done : Step) (next : Machine) (hm : m.program = p)
      (h : m.step = (.ok done, next)) : done.fault = none ∧ next.program = p := by
    subst hm
    obtain ⟨i, hget, rfl, rfl⟩ := Machine.step_eq_ok h
    have hi : i ∈ m.program.instructions.toList := by
      rw [Array.mem_toList_iff]
      exact Array.mem_of_getElem? hget
    exact ⟨Instruction.fault_execute_eq_none fun hjumps => wf.lands hresolved hsize hi hjumps, rfl⟩
  have hfaults := (Machine.forall_steps hstep (m := { program := p, input }) rfl n).1
  have hitems := Machine.items_steps { program := p, input } n
  have hcount := Machine.length_steps { program := p, input } n
  rw [hrun] at hfaults hitems hcount
  have hreport : ∀ done ∈ executed, done.emissions ++ done.report = done.emissions := by
    intro done hdone
    unfold Step.report
    rw [hfaults done hdone]
    exact List.append_nil _
  rw [List.flatMap_congr hreport] at hitems
  exact ⟨hfaults, hitems, hcount, fun fault next => Machine.step_eq_error_iff⟩

/-- Writes its input up to the first zero, then goes to its end by its size. -/
def echoing : Program :=
  .ofInstructions #[⟨.assign, some (.register .input), false, none⟩,
    ⟨.jumpIfZero, some (.tag "end" 4), false, none⟩, ⟨.putChar, none, false, none⟩,
    ⟨.jump, some (.literal 0), false, none⟩, .tag "end",
    ⟨.jumpIfNegative, some (.tag "end" 4), true, none⟩, ⟨.jump, some (.literal 7), false, none⟩]

def echoRun : List Step × Machine :=
  Machine.steps { program := echoing, input := .ofString "ab" } 20

theorem echoing_never_faults :
    assemble "givI jez:end: oc jmp0 :end: jlz:end:* jmp7" = .ok echoing ∧ echoing.JumpsResolved ∧
    (∀ done ∈ echoRun.1, done.fault = none) ∧
    echoRun.2.output.items = [.char 97, .char 98] ∧ echoRun.2.atEnd = true := by
  have hp : assemble "givI jez:end: oc jmp0 :end: jlz:end:* jmp7" = .ok echoing := by
    decide +kernel
  have hresolved : echoing.JumpsResolved := by decide
  have hrun : Machine.steps { program := echoing, input := .ofString "ab" } 20 =
      (echoRun.1, echoRun.2) := rfl
  obtain ⟨hfaults, hitems, hcount, -⟩ :=
    Machine.resolved_jumps_never_fault (by decide) hp hresolved _ 20 hrun
  refine ⟨hp, hresolved, hfaults, ?_, hcount.resolve_left (by decide +kernel)⟩
  rw [hitems]
  decide +kernel

end AccumulatorMachine
