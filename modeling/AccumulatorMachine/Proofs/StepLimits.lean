import AccumulatorMachine.Proofs.Operations

/-!
A limit on the steps ends every run. Each tick that does not end a run makes at least one step, and
no step is made beyond the limit, so that the ticks are bounded by the limit too. How the run ends is
decided by where the machine stands after as many steps as the limit allows.
-/
namespace AccumulatorMachine

/-- The reason why a run that may make no further step ends where the machine stands. -/
def Machine.haltAtLimit (m : Machine) : Halt :=
  if m.atEnd then .finished else .stepLimit

theorem Machine.haltAtLimit_of_atEnd {m : Machine} (h : m.atEnd = true) :
    m.haltAtLimit = .finished :=
  if_pos h

theorem Machine.haltAtLimit_of_not_atEnd {m : Machine} (h : m.atEnd = false) :
    m.haltAtLimit = .stepLimit :=
  if_neg (Bool.eq_false_iff.mp h)

namespace Runner

/-- The runner whose machine has made so many steps more. -/
def afterSteps (r : Runner) (count : Nat) : Runner :=
  { r with
    machine := (r.machine.steps count).2
    steps := r.steps + (r.machine.steps count).1.length }

theorem afterSteps_of_isFinished {r : Runner} (h : r.isFinished = true) (count : Nat) :
    r.afterSteps count = r := by
  unfold afterSteps
  rw [Machine.steps_of_atEnd h]
  rfl

theorem progress_afterSteps_succ {r next : Runner} {done : Step} (h : r.step = (.ok done, next))
    (count : Nat) (printed : String) :
    (r.afterSteps (count + 1)).progress printed = (next.afterSteps count).progress printed := by
  obtain ⟨-, -, hsteps⟩ := step_fields h
  have hcount : r.steps + ((next.machine.steps count).1.length + 1) =
      next.steps + (next.machine.steps count).1.length := by omega
  unfold afterSteps progress
  rw [Machine.steps_of_step (step_eq_ok h).1]
  dsimp only
  rw [List.length_cons, hcount]

/-- Uninterrupted progress under a limit leads through the steps that the limit leaves. -/
theorem runsTo_afterSteps (r : Runner) (printed : String) (limit : Nat) :
    RunsTo (some limit) (r.progress printed)
      (r.afterSteps (limit - r.steps)).machine.haltAtLimit
      ((r.afterSteps (limit - r.steps)).progress printed) := by
  -- By induction on the steps that are left; the end of the program is looked at before the limit.
  induction hleft : limit - r.steps generalizing r with
  | zero =>
    have hreached : limit ≤ r.steps := by omega
    cases hend : r.isFinished with
    | true =>
      rw [afterSteps_of_isFinished hend, Machine.haltAtLimit_of_atEnd hend]
      exact .finished hend
    | false =>
      have hhalt : (r.afterSteps 0).machine.haltAtLimit = .stepLimit :=
        Machine.haltAtLimit_of_not_atEnd hend
      rw [hhalt]
      exact .stepLimit hend (decide_eq_true hreached)
  | succ left ih =>
    cases hend : r.isFinished with
    | true =>
      rw [afterSteps_of_isFinished hend, Machine.haltAtLimit_of_atEnd hend]
      exact .finished hend
    | false =>
      have hbelow : ¬limit ≤ r.steps := by omega
      obtain ⟨done, next, hstep⟩ := exists_step hend
      obtain ⟨-, -, hsteps⟩ := step_fields hstep
      have hmachine : (r.afterSteps (left + 1)).machine = (next.afterSteps left).machine := by
        unfold afterSteps
        rw [Machine.steps_of_step (step_eq_ok hstep).1]
      have hlater := ih next (by omega)
      rw [hmachine, progress_afterSteps_succ hstep]
      exact .step hend (decide_eq_false hbelow) (next?_progress hstep printed) hlater

/-- A bounded run that goes on has spent its budget, which was within the limit. -/
theorem budget_le_of_runFor {r t : Runner} {budget limit : Nat}
    (hlimit : r.config.stepLimit = some limit) (h : r.runFor budget = (.ok none, t)) :
    budget ≤ limit - r.steps := by
  have hpaused : r.paused = false := by
    rw [← Bool.not_eq_true]
    intro hpaused
    rw [runFor, if_pos hpaused] at h
    cases h
  obtain ⟨halt?, t', hrun, hran⟩ := ran_runFor r budget
  rw [h] at hrun
  obtain ⟨rfl, rfl⟩ := okPair_inj hrun
  have hcourse := Nat.le_trans (length_course_le r budget) (allowance_le hlimit budget)
  have hadvanced := r.advanced_advance budget
  rw [runFor, hpaused, if_neg Bool.false_ne_true] at h
  rw [h] at hadvanced
  cases hadvanced with
  | going hconfig hstill hsteps hsame =>
    have hexecuted := hran.steps
    omega

/-- A run under a limit returns, and what it has executed by then is within the limit. -/
theorem exists_run_of_stepLimit {r : Runner} {limit : Nat}
    (hlimit : r.config.stepLimit = some limit) :
    ∃ halt t executed, r.run (limit - r.steps + 1) = (.ok (some halt), t) ∧
      r.Ran executed (some halt) t ∧ executed.length ≤ limit - r.steps := by
  rw [run_eq_runFor]
  obtain ⟨halt?, t, hrun, hran⟩ :=
    ran_runFor r ((limit - r.steps + 1) * (Decimal.wordLimit - 1))
  cases halt? with
  | some halt =>
    exact ⟨halt, t, _, hrun, hran, Nat.le_trans (length_course_le r _) (allowance_le hlimit _)⟩
  | none =>
    have hbudget := budget_le_of_runFor hlimit hrun
    have hround : 1 ≤ Decimal.wordLimit - 1 := by decide
    have hbeyond := Nat.mul_le_mul_left (limit - r.steps + 1) hround
    omega

end Runner

/-- A host with a limit is done within one tick more than the limit has steps, and has come as far
as the machine comes by itself. -/
theorem Host.exists_run_of_stepLimit {config : RunConfig} {limit : Nat}
    (hpos : 0 < config.stepsPerTick) (hlimit : config.stepLimit = some limit) (machine : Machine) :
    ∃ final, (Host.start machine config).bind (·.run (limit + 1)) =
        .ok (some (machine.steps limit).2.haltAtLimit, final) ∧
      final.progress = (Runner.afterSteps { machine, config } limit).progress "" := by
  let runner : Runner := { machine, config }
  have hready : Host.Ready (some limit) { runner } := ⟨rfl, hpos, hlimit⟩
  have hruns : RunsTo (some limit) (runner.progress "") (machine.steps limit).2.haltAtLimit
      ((runner.afterSteps limit).progress "") := runner.runsTo_afterSteps "" limit
  have hticks : ((runner.afterSteps limit).progress "").steps - (runner.progress "").steps <
      limit + 1 := by
    have hlength := Machine.length_steps_le machine limit
    change 0 + (machine.steps limit).1.length - 0 < limit + 1
    omega
  obtain ⟨final, hrun, hprogress⟩ :=
    runTicks_ends (Host.tickOf_tick (some limit)) hready hruns hticks
  refine ⟨final, ?_, hprogress⟩
  rw [Host.start_eq hpos, ← hrun]
  exact Host.run_eq_runTicks _ _

/-- Under a limit every run comes to an end. The host is done within one tick more than the limit
has steps, whatever the size of its ticks and whether it stops at breakpoints. It has made the steps
that the machine makes by itself within the limit, and has finished if these lead to the end of the
program. A single run of a runner, from any state, executes no more than its count leaves of the
limit. -/
theorem Host.run_ends_within_limit (limit : Nat) :
    (∀ (program : Program) (input : Input) (config : RunConfig), 0 < config.stepsPerTick →
      config.stepLimit = some limit →
      ∃ halt final,
        (Host.start { program, input } config).bind (·.run (limit + 1)) =
          .ok (some halt, final) ∧
        final.runner.steps = (Machine.steps { program, input } limit).1.length ∧
        final.runner.steps ≤ limit ∧
        final.runner.state = (Machine.steps { program, input } limit).2.state ∧
        halt = if (Machine.steps { program, input } limit).2.atEnd then .finished
          else .stepLimit) ∧
    ∀ r : Runner, r.config.stepLimit = some limit →
      ∃ halt t executed, r.run (limit - r.steps + 1) = (.ok (some halt), t) ∧
        r.Ran executed (some halt) t ∧ executed.length ≤ limit - r.steps := by
  refine ⟨fun program input config hpos hlimit => ?_, fun r => Runner.exists_run_of_stepLimit⟩
  obtain ⟨final, hrun, hprogress⟩ :=
    Host.exists_run_of_stepLimit hpos hlimit { program, input }
  have hsteps : final.runner.steps = (Machine.steps { program, input } limit).1.length :=
    (congrArg Progress.steps hprogress).trans (Nat.zero_add _)
  have hstate : final.runner.state = (Machine.steps { program, input } limit).2.state :=
    congrArg Progress.state hprogress
  refine ⟨_, final, hrun, hsteps, ?_, hstate, rfl⟩
  rw [hsteps]
  exact Machine.length_steps_le _ _

/-- Comes to its end in two steps, the first of which has a breakpoint. -/
def twoSteps : Program :=
  .ofInstructions #[⟨.add, some (.literal 1), true, none⟩, ⟨.putNumber, none, false, none⟩]

theorem limited_runs_end :
    (∃ final, (Host.start { program := counting } ⟨true, true, some 7, 2⟩).bind (·.run 8) =
      .ok (some .stepLimit, final) ∧ final.runner.steps = 7) ∧
    (∃ final, (Host.start { program := twoSteps } ⟨false, true, some 2, 9⟩).bind (·.run 3) =
      .ok (some .finished, final) ∧ final.runner.steps = 2) ∧
    ∃ halt t, Runner.run ⟨{ program := counting }, ⟨false, false, some 7, 1⟩, false, 4, [], []⟩ 4 =
      (.ok (some halt), t) ∧ t.steps ≤ 7 := by
  refine ⟨?_, ?_, ?_⟩
  · obtain ⟨halt, final, hrun, hsteps, -, -, rfl⟩ := (Host.run_ends_within_limit 7).1 counting
      .exhausted ⟨true, true, some 7, 2⟩ (by decide) rfl
    exact ⟨final, hrun, hsteps⟩
  · obtain ⟨halt, final, hrun, hsteps, -, -, rfl⟩ := (Host.run_ends_within_limit 2).1 twoSteps
      .exhausted ⟨false, true, some 2, 9⟩ (by decide) rfl
    exact ⟨final, hrun, hsteps⟩
  · obtain ⟨halt, t, executed, hrun, hran, hlength⟩ := (Host.run_ends_within_limit 7).2
      ⟨{ program := counting }, ⟨false, false, some 7, 1⟩, false, 4, [], []⟩ rfl
    have hsteps := hran.steps
    dsimp only at hsteps hlength
    exact ⟨halt, t, hrun, by omega⟩

end AccumulatorMachine
