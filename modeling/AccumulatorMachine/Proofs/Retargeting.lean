import AccumulatorMachine.Proofs.ControlTransfer
import AccumulatorMachine.Proofs.ResolvedJumps

/-!
A jump to a tag is a jump past it. When some of the jumps to a tag are made to go to the instruction
behind it, a run does the same, one step shorter for each of these jumps that it takes. Runs that never
end are compared as well, by what they have done after so many steps.
-/
namespace AccumulatorMachine

namespace Instruction

/-- A jump whose operand is a tag with the given index. -/
def jumpsTo (i : Instruction) (target : Nat) : Bool :=
  i.opcode.isJump && i.operand.any fun
    | .tag _ own => own == target
    | _ => false

/-- The instruction with its tag standing for another index. -/
def withTarget (i : Instruction) (target : Nat) : Instruction :=
  { i with operand := i.operand.map fun
    | .tag name _ => .tag name target
    | operand => operand }

variable {i : Instruction} {target : Nat}

theorem operand_of_jumpsTo (h : i.jumpsTo target = true) :
    ∃ name, i.opcode.isJump = true ∧ i.operand = some (.tag name target) ∧
      ∀ other, (i.withTarget other).operand = some (.tag name other) := by
  unfold jumpsTo at h
  unfold withTarget
  obtain ⟨hjump, hany⟩ := Bool.and_eq_true_iff.mp h
  rcases hoperand : i.operand with _ | ⟨_ | _ | ⟨name, own⟩⟩
  · simp [hoperand] at hany
  · simp [hoperand] at hany
  · simp [hoperand] at hany
  · have hown : own = target := by simpa [hoperand] using hany
    subst hown
    exact ⟨name, hjump, rfl, fun _ => rfl⟩

theorem readsInput_withTarget : (i.withTarget target).readsInput = i.readsInput := by
  unfold readsInput withTarget isTag
  rcases i.operand with _ | ⟨_ | _ | _⟩
  · rfl
  · rfl
  · rfl
  · simp

theorem perform_of_skipped {op : Opcode} {s : State} (hjump : op.isJump = true)
    (h : jumps op s.accumulator = false) (p : Program) (value : Int64) (input : Input) :
    perform p op value s input = { state := s, input } := by
  cases op with
  | jump | jumpIfPositive | jumpIfZero | jumpIfNegative => rw [perform, h, if_neg Bool.false_ne_true]
  | _ => cases hjump

theorem readsInput_of_isTag (h : i.isTag = true) : i.readsInput = false := by
  unfold readsInput
  rw [h]
  rfl

end Instruction

namespace Program

/-- The program in which the chosen ones of the jumps to a tag go to the instruction behind it. -/
def retarget (p : Program) (t : Nat) (chosen : Nat → Bool) : Program :=
  { p with instructions := p.instructions.mapIdx fun index i =>
      if chosen index && i.jumpsTo t then i.withTarget (t + 1) else i }

variable {p : Program} {t : Nat} {chosen : Nat → Bool}

theorem size_retarget : (p.retarget t chosen).size = p.size :=
  Array.size_mapIdx

theorem get?_retarget {index : Nat} {i : Instruction} (h : p.get? index = some i) (t : Nat)
    (chosen : Nat → Bool) :
    (p.retarget t chosen).get? index =
      some (if chosen index && i.jumpsTo t then i.withTarget (t + 1) else i) := by
  unfold get? at h
  unfold get? retarget
  rw [Array.getElem?_mapIdx, h, Option.map_some]

/-- The step takes a jump that goes past the tag instead of to it. -/
def cutsShort (p : Program) (t : Nat) (chosen : Nat → Bool) (done : Step) : Bool :=
  chosen done.index && (p.get? done.index).any (·.jumpsTo t) &&
    decide (done.instruction.Takes done.before.accumulator)

end Program

/-- A state without the place in the program. -/
def State.snapshot (s : State) : Int64 × List Int64 :=
  (s.accumulator, s.stack)

namespace Step

/-- The indices of the instructions other than tags that were executed. -/
def indices (executed : List Step) : List Nat :=
  (executed.filter fun done => !done.instruction.isTag).map Step.index

/-- What the breakpoints showed, apart from the place in the program. -/
def snapshots (executed : List Step) : List (Int64 × List Int64) :=
  executed.filterMap fun done => done.hit?.map State.snapshot

def tagCount (executed : List Step) : Nat :=
  executed.countP fun done => done.instruction.isTag

def readCount (executed : List Step) : Nat :=
  executed.countP fun done => done.instruction.readsInput

/-- Both steps are seen to be the same. -/
structure Alike (done done' : Step) : Prop where
  index : done.index = done'.index
  isTag : done.instruction.isTag = done'.instruction.isTag
  readsInput : done.instruction.readsInput = done'.instruction.readsInput
  snapshot : done.hit?.map State.snapshot = done'.hit?.map State.snapshot

/-- The steps of two runs: alike one by one, but that the first run passes a tag behind each step that
cuts it short in the second. -/
inductive Detours (cutsShort : Step → Bool) : List Step → List Step → Prop
  | nil : Detours cutsShort [] []
  | cons {done done' : Step} {later later' : List Step} (halike : done.Alike done')
    (hcut : cutsShort done' = false) (hlater : Detours cutsShort later later') :
    Detours cutsShort (done :: later) (done' :: later')
  | detour {done passing done' : Step} {later later' : List Step} (halike : done.Alike done')
    (hcut : cutsShort done' = true) (htag : passing.instruction.isTag = true)
    (hquiet : passing.hit? = none) (hlater : Detours cutsShort later later') :
    Detours cutsShort (done :: passing :: later) (done' :: later')

theorem Alike.indices_cons {done done' : Step} {later later' : List Step} (h : done.Alike done')
    (hlater : indices later = indices later') :
    indices (done :: later) = indices (done' :: later') := by
  unfold indices at hlater ⊢
  rw [List.filter_cons, List.filter_cons, h.isTag]
  split
  · rw [List.map_cons, List.map_cons, h.index, hlater]
  · exact hlater

theorem indices_cons_of_isTag {passing : Step} (h : passing.instruction.isTag = true)
    (later : List Step) : indices (passing :: later) = indices later := by
  unfold indices
  rw [List.filter_cons, h]
  rfl

variable {cutsShort : Step → Bool} {executed executed' : List Step}

namespace Detours

theorem indices_eq (h : Detours cutsShort executed executed') :
    indices executed = indices executed' := by
  induction h with
  | nil => rfl
  | cons halike _ _ ih => exact halike.indices_cons ih
  | detour halike _ htag _ _ ih =>
    apply halike.indices_cons
    rw [indices_cons_of_isTag htag]
    exact ih

theorem snapshots_eq (h : Detours cutsShort executed executed') :
    snapshots executed = snapshots executed' := by
  unfold snapshots
  induction h with
  | nil => rfl
  | cons halike _ _ ih => simp only [List.filterMap_cons, halike.snapshot, ih]
  | detour halike _ _ hquiet _ ih =>
    simp only [List.filterMap_cons, halike.snapshot, hquiet, Option.map_none, ih]

theorem readCount_eq (h : Detours cutsShort executed executed') :
    readCount executed = readCount executed' := by
  unfold readCount
  induction h with
  | nil => rfl
  | cons halike _ _ ih => simp only [List.countP_cons, halike.readsInput, ih]
  | detour halike _ htag _ _ ih =>
    have hnone := Instruction.readsInput_of_isTag htag
    simp only [List.countP_cons, halike.readsInput, hnone, ih]
    rfl

theorem tagCount_eq (h : Detours cutsShort executed executed') :
    tagCount executed = tagCount executed' + executed'.countP cutsShort := by
  unfold tagCount
  induction h with
  | nil => rfl
  | cons halike hcut _ ih =>
    rw [List.countP_cons, List.countP_cons, List.countP_cons, halike.isTag, ih, hcut,
      if_neg Bool.false_ne_true]
    omega
  | detour halike hcut htag _ _ ih =>
    rw [List.countP_cons, List.countP_cons, List.countP_cons, List.countP_cons, halike.isTag, ih,
      hcut, htag, if_pos rfl]
    omega

end Detours

end Step

namespace Machine

variable {m : Machine} {t : Nat} {chosen : Nat → Bool} {i : Instruction}

/-- The machine as it is, with another program. -/
def retarget (m : Machine) (t : Nat) (chosen : Nat → Bool) : Machine :=
  { m with program := m.program.retarget t chosen }

theorem atEnd_retarget : (m.retarget t chosen).atEnd = m.atEnd := by
  unfold Machine.atEnd State.atEnd
  rw [retarget, Program.size_retarget]

/-- A jump to a tag in the program goes there, and does nothing else. -/
theorem step_of_tag {name : String} {target : Nat} (hget : m.program.get? m.state.pc = some i)
    (htakes : i.Takes m.state.accumulator) (hoperand : i.operand = some (.tag name target))
    (hword : target < Decimal.signedLimit) (hle : target ≤ m.program.size) :
    m.step = (.ok ⟨m.state.pc, i, m.state, { m.state with pc := target }, none⟩,
      { m with state := { m.state with pc := target } }) := by
  have hvalue : (m.valueOf i).toInt = target := by
    unfold valueOf Instruction.value
    rw [hoperand]
    exact Int64.toInt_ofNat_of_lt hword
  have hlands : Lands m.program.size (m.valueOf i) := by
    unfold Lands
    rw [hvalue]
    omega
  have hstate : m.stateBehind i = { m.state with pc := m.state.pc + 1 } := by
    unfold stateBehind Instruction.stackBehind
    rw [hoperand, if_neg nofun]
  have hinput : i.inputBehind m.input = m.input := by
    unfold Instruction.inputBehind
    rw [hoperand, if_neg nofun]
  rw [step_of_lands hget htakes hlands, hvalue, hstate, hinput, Int.toNat_natCast]

/-- A jump by a tag that is not taken does nothing. -/
theorem effect_of_skipped {name : String} {target : Nat} (hjump : i.opcode.isJump = true)
    (hnot : ¬i.Takes m.state.accumulator) (hoperand : i.operand = some (.tag name target)) :
    m.effect i = { state := { m.state with pc := m.state.pc + 1 }, input := m.input } := by
  have htag : ¬i.isTag = true := by
    unfold Instruction.isTag
    cases hop : i.opcode with
    | tag =>
      rw [hop] at hjump
      cases hjump
    | _ => exact Bool.false_ne_true
  unfold effect Instruction.execute
  rw [if_neg htag]
  dsimp only [Instruction.operandValue]
  rw [hoperand]
  apply Instruction.perform_of_skipped hjump
  exact Instruction.jumps_of_not_takes hnot

/-- The next step, made with the jumps to the tag and with those past it. -/
inductive StepsAlong (m : Machine) (t : Nat) (chosen : Nat → Bool) : Prop
  | alike {done done' : Step} {next : Machine} (hstep : m.step = (.ok done, next))
    (hstep' : (m.retarget t chosen).step = (.ok done', next.retarget t chosen))
    (halike : done.Alike done') (hcut : m.program.cutsShort t chosen done' = false) :
    StepsAlong m t chosen
  /-- Behind the jump the tag is passed, by a step without any effect. -/
  | detour {done passing done' : Step} {next after : Machine} (hstep : m.step = (.ok done, next))
    (hpass : next.step = (.ok passing, after))
    (hstep' : (m.retarget t chosen).step = (.ok done', after.retarget t chosen))
    (houtput : next.output = after.output) (halike : done.Alike done')
    (hcut : m.program.cutsShort t chosen done' = true) (htag : passing.instruction.isTag = true)
    (hquiet : passing.hit? = none) : StepsAlong m t chosen

theorem stepsAlong_of_same (hget : m.program.get? m.state.pc = some i)
    (h : (chosen m.state.pc && i.jumpsTo t) = false) : m.StepsAlong t chosen := by
  have hget' : (m.retarget t chosen).program.get? (m.retarget t chosen).state.pc = some i := by
    have hsame := Program.get?_retarget hget t chosen
    rw [h] at hsame
    exact hsame
  have heffect : (m.retarget t chosen).effect i = m.effect i := by
    unfold effect
    exact Instruction.execute_of_size_eq Program.size_retarget _ _ _
  have hstep' := step_of_get? hget'
  rw [heffect] at hstep'
  refine .alike (step_of_get? hget) hstep' ⟨rfl, rfl, rfl, rfl⟩ ?_
  unfold Program.cutsShort
  dsimp only [retarget]
  rw [hget, Option.any_some, h]
  rfl

/-- A step with another target is seen to be the same, wherever it leads. -/
theorem alike_withTarget (i : Instruction) (target : Nat) {before after after' : State} {index : Nat}
    {fault fault' : Option Fault} (h : after.snapshot = after'.snapshot) :
    Step.Alike ⟨index, i, before, after, fault⟩
      ⟨index, i.withTarget target, before, after', fault'⟩ where
  index := rfl
  isTag := rfl
  readsInput := Instruction.readsInput_withTarget.symm
  snapshot := by
    unfold Step.hit? Step.breakpoint Instruction.withTarget
    dsimp only
    split
    · exact congrArg some h
    · rfl

section Chosen

variable (hget : m.program.get? m.state.pc = some i)
  (h : (chosen m.state.pc && i.jumpsTo t) = true)

include hget h

theorem get?_of_chosen : (m.retarget t chosen).program.get? (m.retarget t chosen).state.pc =
    some (i.withTarget (t + 1)) := by
  have hpast := Program.get?_retarget hget t chosen
  rw [h, if_pos rfl] at hpast
  exact hpast

theorem cutsShort_of_chosen (after : State) (fault : Option Fault) :
    m.program.cutsShort t chosen ⟨m.state.pc, i.withTarget (t + 1), m.state, after, fault⟩ =
      decide (i.Takes m.state.accumulator) := by
  unfold Program.cutsShort
  dsimp only
  rw [hget, Option.any_some, h, Bool.true_and]
  rfl

theorem stepsAlong_of_skipped (hnot : ¬i.Takes m.state.accumulator) : m.StepsAlong t chosen := by
  obtain ⟨name, hjump, hoperand, hoperand'⟩ :=
    Instruction.operand_of_jumpsTo (Bool.and_eq_true_iff.mp h).2
  have heffect := effect_of_skipped hjump hnot hoperand
  have heffect' : (m.retarget t chosen).effect (i.withTarget (t + 1)) = _ :=
    effect_of_skipped hjump hnot (hoperand' _)
  have hstep := step_of_get? hget
  have hstep' := step_of_get? (get?_of_chosen hget h)
  rw [heffect] at hstep
  rw [heffect'] at hstep'
  refine .alike hstep hstep' (alike_withTarget i _ rfl) ?_
  exact (cutsShort_of_chosen hget h _ _).trans (decide_eq_false hnot)

theorem stepsAlong_of_taken (htakes : i.Takes m.state.accumulator) {tag : Instruction}
    (ht : m.program.get? t = some tag) (htag : tag.isTag = true) (hplain : tag.breakpoint = false)
    (hword : t + 1 < Decimal.signedLimit) : m.StepsAlong t chosen := by
  obtain ⟨name, -, hoperand, hoperand'⟩ :=
    Instruction.operand_of_jumpsTo (Bool.and_eq_true_iff.mp h).2
  have hlt : t < m.program.size := (Array.getElem?_eq_some_iff.mp ht).1
  have hsame : (m.retarget t chosen).program.size = m.program.size := Program.size_retarget
  have hstep := step_of_tag hget htakes hoperand (Nat.lt_of_succ_lt hword) (Nat.le_of_lt hlt)
  have hstep' := step_of_tag (get?_of_chosen hget h) htakes (hoperand' _) hword (hsame ▸ hlt)
  have hpass := step_of_isTag (m := { m with state := { m.state with pc := t } }) ht htag
  refine .detour hstep hpass hstep' rfl (alike_withTarget i _ rfl) ?_ htag ?_
  · exact (cutsShort_of_chosen hget h _ _).trans (decide_eq_true htakes)
  · unfold Step.hit? Step.breakpoint
    rw [hplain]
    rfl

end Chosen

/-- The number of steps that the first steps are cut short by. -/
def savedSteps (m : Machine) (t : Nat) (chosen : Nat → Bool) (count : Nat) : Nat :=
  ((m.retarget t chosen).steps count).1.countP (m.program.cutsShort t chosen)

theorem savedSteps_succ {next : Machine} {done : Step} (hprogram : next.program = m.program)
    (h : (m.retarget t chosen).step = (.ok done, next.retarget t chosen)) (n : Nat) :
    m.savedSteps t chosen (n + 1) =
      next.savedSteps t chosen n + if m.program.cutsShort t chosen done then 1 else 0 := by
  unfold savedSteps
  rw [steps_of_step h, List.countP_cons, hprogram]

theorem steps_retarget_of_atEnd (h : m.atEnd = true) (n : Nat) :
    (m.retarget t chosen).steps n = ([], m.retarget t chosen) := by
  apply steps_of_atEnd
  rw [atEnd_retarget]
  exact h

/-- Two runs have done the same, the first one in so many more steps over tags. -/
structure Agrees (more : Nat) (run run' : List Step × Machine) : Prop where
  indices : Step.indices run.1 = Step.indices run'.1
  tagCount : Step.tagCount run.1 = Step.tagCount run'.1 + more
  snapshots : Step.snapshots run.1 = Step.snapshots run'.1
  readCount : Step.readCount run.1 = Step.readCount run'.1
  state : run.2.state = run'.2.state
  input : run.2.input = run'.2.input
  written : run.2.output.items = run'.2.output.items

section Runs

variable {tag : Instruction} (htag : tag.isTag = true) (hplain : tag.breakpoint = false)
  (hword : t + 1 < Decimal.signedLimit)

include htag hplain hword

theorem stepsAlong (ht : m.program.get? t = some tag) (hend : m.atEnd = false) :
    m.StepsAlong t chosen := by
  obtain ⟨done, next, hstep⟩ := exists_step hend
  obtain ⟨i, hget, -⟩ := step_eq_ok hstep
  cases h : chosen m.state.pc && i.jumpsTo t with
  | false => exact stepsAlong_of_same hget h
  | true =>
    by_cases htakes : i.Takes m.state.accumulator
    · exact stepsAlong_of_taken hget h htakes ht htag hplain hword
    · exact stepsAlong_of_skipped hget h htakes

/-- A run with the jumps past the tag, and the run that passes the tag instead. -/
theorem detours_steps (ht : m.program.get? t = some tag) (chosen : Nat → Bool) (n : Nat) :
    Step.Detours (m.program.cutsShort t chosen) (m.steps (n + m.savedSteps t chosen n)).1
        ((m.retarget t chosen).steps n).1 ∧
      (m.steps (n + m.savedSteps t chosen n)).2.retarget t chosen =
        ((m.retarget t chosen).steps n).2 := by
  induction n generalizing m with
  | zero => exact ⟨.nil, rfl⟩
  | succ n ih =>
    cases hend : m.atEnd with
    | true =>
      rw [steps_retarget_of_atEnd hend, steps_of_atEnd hend]
      exact ⟨.nil, rfl⟩
    | false =>
      cases stepsAlong htag hplain hword ht hend with
      | alike hstep hstep' halike hcut =>
        rename_i next
        have hprogram := program_step hstep
        obtain ⟨hlater, hlast⟩ := ih (hprogram ▸ ht)
        have hcount : n + 1 + m.savedSteps t chosen (n + 1) =
            n + next.savedSteps t chosen n + 1 := by
          rw [savedSteps_succ hprogram hstep', hcut, if_neg Bool.false_ne_true]
          omega
        rw [hprogram] at hlater
        rw [hcount, steps_of_step hstep, steps_of_step hstep']
        exact ⟨.cons halike hcut hlater, hlast⟩
      | detour hstep hpass hstep' houtput halike hcut htag' hquiet =>
        rename_i after
        have hprogram := (program_step hpass).trans (program_step hstep)
        obtain ⟨hlater, hlast⟩ := ih (hprogram ▸ ht)
        -- The jump and the tag behind it stand against one step.
        have hcount : n + 1 + m.savedSteps t chosen (n + 1) =
            n + after.savedSteps t chosen n + 1 + 1 := by
          rw [savedSteps_succ hprogram hstep', hcut, if_pos rfl]
          omega
        rw [hprogram] at hlater
        rw [hcount, steps_of_step hstep, steps_of_step hpass, steps_of_step hstep']
        exact ⟨.detour halike hcut htag' hquiet hlater, hlast⟩

theorem agrees_steps (ht : m.program.get? t = some tag) (chosen : Nat → Bool) (k : Nat) :
    Agrees (m.savedSteps t chosen k) (m.steps (k + m.savedSteps t chosen k))
      ((m.retarget t chosen).steps k) := by
  obtain ⟨hdetours, hlast⟩ := detours_steps htag hplain hword ht chosen k
  refine ⟨hdetours.indices_eq, hdetours.tagCount_eq, hdetours.snapshots_eq, hdetours.readCount_eq,
    ?_, ?_, ?_⟩
  · rw [← hlast]
    rfl
  · rw [← hlast]
    rfl
  · rw [← hlast]
    rfl

theorem atEnd_steps_eq (ht : m.program.get? t = some tag) (chosen : Nat → Bool) (k : Nat) :
    ((m.retarget t chosen).steps k).2.atEnd =
      (m.steps (k + m.savedSteps t chosen k)).2.atEnd := by
  obtain ⟨-, hlast⟩ := detours_steps htag hplain hword ht chosen k
  rw [← hlast]
  exact atEnd_retarget

/-- However far a run has come, the run with the jumps past the tag has done the same at some point. -/
theorem exists_steps_retarget (ht : m.program.get? t = some tag) (chosen : Nat → Bool) (n : Nat) :
    ∃ k ≤ n, Step.indices (m.steps n).1 = Step.indices ((m.retarget t chosen).steps k).1 ∧
      (m.steps n).2.output = ((m.retarget t chosen).steps k).2.output := by
  induction n using Nat.strongRecOn generalizing m with
  | ind n ih =>
    cases n with
    | zero => exact ⟨0, Nat.le_refl 0, rfl, rfl⟩
    | succ n =>
      cases hend : m.atEnd with
      | true =>
        refine ⟨0, Nat.zero_le _, ?_⟩
        rw [steps_of_atEnd hend]
        exact ⟨rfl, rfl⟩
      | false =>
        cases stepsAlong htag hplain hword ht hend with
        | alike hstep hstep' halike hcut =>
          have hprogram := program_step hstep
          obtain ⟨k, hk, hindices, houtput⟩ :=
            ih n (Nat.lt_succ_self n) (hprogram ▸ ht)
          refine ⟨k + 1, Nat.succ_le_succ hk, ?_, ?_⟩
          · rw [steps_of_step hstep, steps_of_step hstep']
            exact halike.indices_cons hindices
          · rw [steps_of_step hstep, steps_of_step hstep']
            exact houtput
        | detour hstep hpass hstep' houtput halike hcut htag' hquiet =>
          have hprogram := (program_step hpass).trans (program_step hstep)
          cases n with
          | zero =>
            refine ⟨1, Nat.le_refl 1, ?_, ?_⟩
            · rw [steps_of_step hstep, steps_of_step hstep']
              exact halike.indices_cons rfl
            · rw [steps_of_step hstep, steps_of_step hstep']
              exact houtput
          | succ n =>
            obtain ⟨k, hk, hindices, hlater⟩ := ih n (by omega) (hprogram ▸ ht)
            refine ⟨k + 1, by omega, ?_, ?_⟩
            · rw [steps_of_step hstep, steps_of_step hpass, steps_of_step hstep']
              apply halike.indices_cons
              rw [Step.indices_cons_of_isTag htag']
              exact hindices
            · rw [steps_of_step hstep, steps_of_step hpass, steps_of_step hstep']
              exact hlater

end Runs

/-- Jumps to a tag without a breakpoint can as well go to the instruction behind it, even if that is
the end of the program. Any choice of these jumps leaves what a machine does as it is, from the start or
from any other state. With the jumps past the tag it comes, after any number of steps, to where it comes
in more steps without: one more over the tag for each of these jumps that was taken. Neither run executes
or writes what the other does not. One comes to an end if the other does, and they agree there. Every
index of a program is a positive word. -/
theorem jump_past_tag_agrees (m : Machine) (t : Nat) {tag : Instruction}
    (ht : m.program.get? t = some tag) (htag : tag.isTag = true) (hplain : tag.breakpoint = false)
    (hword : t + 1 < Decimal.signedLimit) (chosen : Nat → Bool) :
    (∀ k, Agrees (m.savedSteps t chosen k) (m.steps (k + m.savedSteps t chosen k))
      ((m.retarget t chosen).steps k)) ∧
    (∀ n, ∃ k ≤ n, Step.indices (m.steps n).1 = Step.indices ((m.retarget t chosen).steps k).1 ∧
      (m.steps n).2.output.items = ((m.retarget t chosen).steps k).2.output.items) ∧
    ((∃ n, (m.steps n).2.atEnd = true) ↔ ∃ k, ((m.retarget t chosen).steps k).2.atEnd = true) ∧
    ∀ n k, (m.steps n).2.atEnd = true → ((m.retarget t chosen).steps k).2.atEnd = true →
      Agrees (m.savedSteps t chosen k) (m.steps n) ((m.retarget t chosen).steps k) := by
  have hend := atEnd_steps_eq htag hplain hword ht chosen
  refine ⟨agrees_steps htag hplain hword ht chosen, fun n => ?_, ⟨?_, ?_⟩, fun n k hn hk => ?_⟩
  · obtain ⟨k, hk, hindices, houtput⟩ := exists_steps_retarget htag hplain hword ht chosen n
    exact ⟨k, hk, hindices, congrArg Output.items houtput⟩
  · rintro ⟨n, hn⟩
    refine ⟨n, (hend n).trans ?_⟩
    rw [steps_add_of_atEnd hn]
    exact hn
  · rintro ⟨k, hk⟩
    exact ⟨_, (hend k).symm.trans hk⟩
  · have hsame := steps_eq_of_atEnd hn ((hend k).symm.trans hk)
    rw [hsame]
    exact agrees_steps htag hplain hword ht chosen k

end Machine

/-- Counts down to zero in a loop, then goes to a tag that is its last instruction. -/
def countingDown : Program :=
  .ofInstructions #[⟨.assign, some (.literal 3), false, none⟩, .tag "loop",
    ⟨.putNumber, none, false, none⟩, ⟨.add, some (.literal (-1)), false, none⟩,
    ⟨.jumpIfPositive, some (.tag "loop" 1), true, none⟩, ⟨.jump, some (.tag "end" 6), false, none⟩,
    .tag "end"]

theorem countingDown_agrees :
    Machine.Agrees 2 (Machine.steps { program := countingDown } 15)
      (Machine.steps { program := countingDown.retarget 1 fun index => index == 4 } 13) ∧
    Machine.Agrees 1 (Machine.steps { program := countingDown } 15)
      (Machine.steps { program := countingDown.retarget 6 fun _ => true } 14) := by
  have hloop : countingDown.get? 1 = some (.tag "loop") := by decide +kernel
  have hlast : countingDown.get? 6 = some (.tag "end") := by decide +kernel
  obtain ⟨-, -, -, hends⟩ := Machine.jump_past_tag_agrees { program := countingDown } 1 hloop rfl rfl
    (by decide) fun index => index == 4
  obtain ⟨-, -, -, hends'⟩ := Machine.jump_past_tag_agrees { program := countingDown } 6 hlast rfl rfl
    (by decide) fun _ => true
  refine ⟨hends 15 13 ?_ ?_, hends' 15 14 ?_ ?_⟩
  · decide +kernel
  · decide +kernel
  · decide +kernel
  · decide +kernel

end AccumulatorMachine
