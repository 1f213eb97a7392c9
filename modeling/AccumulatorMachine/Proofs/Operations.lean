import AccumulatorMachine.Proofs.BoundedRuns
import Mathlib.Data.List.DropRight

/-!
A runner under any sequence of operations. From what one operation does follow the counter of steps, the
pause and the bounds of the program counter after all of them.
-/
namespace AccumulatorMachine

namespace Runner

variable {r : Runner}

theorem advance_of_isFinished (h : r.isFinished = true) (budget : Nat) :
    r.advance budget = (.ok (some .finished), r) := by
  cases budget with
  | zero => rw [advance, if_pos h]
  | succ budget => rw [advance, if_pos h]

theorem advance_add (r : Runner) (first second : Nat) :
    r.advance (first + second) = match r.advance first with
      | (.ok none, next) => next.advance second
      | done => done := by
  induction first generalizing r with
  | zero =>
    rw [Nat.zero_add]
    cases hend : r.isFinished with
    | true => rw [advance_of_isFinished hend, advance_of_isFinished hend]
    | false => rw [advance, hend, if_neg Bool.false_ne_true]
  | succ first ih =>
    rw [Nat.add_right_comm, advance, advance]
    split
    · rfl
    · split
      · rfl
      · split
        · rfl
        · split
          · rfl
          · exact ih _

theorem runFor_add (r : Runner) (first second : Nat) :
    r.runFor (first + second) = match r.runFor first with
      | (.ok none, next) => next.runFor second
      | done => done := by
  unfold runFor
  cases hpaused : r.paused with
  | true => rfl
  | false =>
    rw [if_neg Bool.false_ne_true, if_neg Bool.false_ne_true, advance_add]
    obtain ⟨t, hrun, hran⟩ := ran_advance hpaused first
    rw [hrun]
    generalize r.haltAfter first (r.course first).length = halt? at hran
    cases halt? with
    | some halt => rfl
    | none =>
      have hstill : t.paused = false := by
        rw [← Bool.not_eq_true, hran.paused, hpaused]
        simp
      dsimp only
      rw [hstill, if_neg Bool.false_ne_true]

/-- Rounds of a run that found no reason to halt make one long bounded run. -/
theorem run_eq_runFor (r : Runner) (more : Nat) :
    r.run (more + 1) = r.runFor ((more + 1) * (Decimal.wordLimit - 1)) := by
  induction more generalizing r with
  | zero =>
    rw [run, Nat.one_mul]
    rcases r.runFor (Decimal.wordLimit - 1) with ⟨_ | _ | _, _⟩
    · rfl
    · rfl
    · rfl
  | succ more ih =>
    have hsplit : (more + 1 + 1) * (Decimal.wordLimit - 1) =
        (Decimal.wordLimit - 1) + (more + 1) * (Decimal.wordLimit - 1) :=
      (Nat.succ_mul _ _).trans (Nat.add_comm _ _)
    rw [run, hsplit, runFor_add]
    rcases r.runFor (Decimal.wordLimit - 1) with ⟨_ | _ | _, next⟩
    · rfl
    · exact ih next
    · rfl

end Runner

/-- What can be asked of a runner. -/
inductive Operation where
  | step
  | runFor (budget : Nat)
  | tick
  /-- A run of at least one round, which may be too short to come to an end. -/
  | run (more : Nat)
  | pause
  | resume
  | reset
  | rewindInput
  | takeOutput
deriving DecidableEq

namespace Operation

/-- The number of steps that a run may make. -/
def budget? (config : RunConfig) : Operation → Option Nat
  | .runFor budget => some budget
  | .tick => some config.stepsPerTick
  | .run more => some ((more + 1) * (Decimal.wordLimit - 1))
  | _ => none

/-- The count of the steps begins anew. -/
def resets : Operation → Bool
  | .reset => true
  | _ => false

/-- The operation ends a pause. -/
def releases : Operation → Bool
  | .resume | .reset => true
  | _ => false

theorem of_budget?_eq_some {op : Operation} {config : RunConfig} {budget : Nat}
    (h : op.budget? config = some budget) :
    op ≠ .step ∧ op ≠ .pause ∧ op.resets = false ∧ op.releases = false := by
  cases op with
  | runFor _ | tick | run _ => exact ⟨nofun, nofun, rfl, rfl⟩
  | step | pause | resume | reset | rewindInput | takeOutput => cases h

end Operation

inductive Answer where
  | stepped (done : Step)
  | ran (halt? : Option Halt)
  | failed (error : RunError)
  | taken (text : String)
  | done
deriving DecidableEq

namespace Runner

/-- The answer to a call, with the runner that the call leaves behind. -/
def answered {α : Type} (answer : α → Answer) : Except RunError α × Runner → Answer × Runner
  | (.ok value, next) => (answer value, next)
  | (.error e, last) => (.failed e, last)

def perform (r : Runner) : Operation → Answer × Runner
  | .step => answered .stepped r.step
  | .runFor budget => answered .ran (r.runFor budget)
  | .tick => answered .ran r.tick
  | .run more => answered .ran (r.run (more + 1))
  | .pause => (.done, r.pause)
  | .resume => (.done, r.resume)
  | .reset => (.done, r.reset)
  | .rewindInput => (.done, r.rewindInput)
  | .takeOutput => (.taken r.takeOutput.1, r.takeOutput.2)

theorem perform_of_budget? {r : Runner} {op : Operation} {budget : Nat}
    (h : op.budget? r.config = some budget) : r.perform op = answered .ran (r.runFor budget) := by
  cases op with
  | runFor _ =>
    cases h
    rfl
  | tick =>
    cases h
    rfl
  | run more =>
    rw [perform, run_eq_runFor, Option.some.inj h]
  | step | pause | resume | reset | rewindInput | takeOutput => cases h

end Runner

/-- An operation with what was there before and after it. -/
structure Event where
  operation : Operation
  before : Runner
  answer : Answer
  after : Runner

namespace Runner

def event (r : Runner) (op : Operation) : Event :=
  ⟨op, r, (r.perform op).1, (r.perform op).2⟩

def afterAll (r : Runner) (ops : List Operation) : Runner :=
  ops.foldl (fun r op => (r.perform op).2) r

def events (r : Runner) : List Operation → List Event
  | [] => []
  | op :: later => r.event op :: (r.event op).after.events later

theorem afterAll_concat (r : Runner) (ops : List Operation) (op : Operation) :
    r.afterAll (ops ++ [op]) = ((r.afterAll ops).event op).after :=
  List.foldl_concat _ _ _ _

theorem events_concat (r : Runner) (ops : List Operation) (op : Operation) :
    r.events (ops ++ [op]) = r.events ops ++ [(r.afterAll ops).event op] := by
  induction ops generalizing r with
  | nil => rfl
  | cons first later ih => exact congrArg (r.event first :: ·) (ih _)

end Runner

/-- The events after the last one whose operation is of the kind. -/
def sinceLast (kind : Operation → Bool) (events : List Event) : List Event :=
  events.rtakeWhile fun e => !kind e.operation

theorem sinceLast_concat (kind : Operation → Bool) (events : List Event) (e : Event) :
    sinceLast kind (events ++ [e]) =
      if kind e.operation then [] else sinceLast kind events ++ [e] := by
  unfold sinceLast
  rw [List.rtakeWhile_concat]
  cases kind e.operation with
  | true => rfl
  | false => rfl

namespace Event

/-- The steps that the operation executes. -/
def executed (e : Event) : List Step :=
  if e.operation = .step then (e.before.machine.steps 1).1
  else (e.operation.budget? e.before.config).elim [] e.before.course

/-- The operation pauses the runner, or comes to a breakpoint. -/
def Pauses (e : Event) : Prop :=
  e.operation = .pause ∨ ∃ state, e.answer = .ran (some (.breakpoint state))

/-- All that an operation can do. -/
inductive Performed : Event → Prop
  | exhausted {r : Runner} (hend : r.isFinished = true) :
    Performed ⟨.step, r, .failed (.machine .exhausted), r⟩
  | stepped {r next : Runner} {done : Step} (hend : r.isFinished = false)
    (hstep : r.step = (.ok done, next)) : Performed ⟨.step, r, .stepped done, next⟩
  | ran {r t : Runner} {op : Operation} {budget : Nat} {halt? : Option Halt}
    (hbudget : op.budget? r.config = some budget) (hrun : r.runFor budget = (.ok halt?, t))
    (hran : r.Ran (r.course budget) halt? t) : Performed ⟨op, r, .ran halt?, t⟩
  | pause {r : Runner} : Performed ⟨.pause, r, .done, r.pause⟩
  | resume {r : Runner} : Performed ⟨.resume, r, .done, r.resume⟩
  | reset {r : Runner} : Performed ⟨.reset, r, .done, r.reset⟩
  | rewindInput {r : Runner} : Performed ⟨.rewindInput, r, .done, r.rewindInput⟩
  | takeOutput {r : Runner} :
    Performed ⟨.takeOutput, r, .taken r.takeOutput.1, r.takeOutput.2⟩

theorem performed_step (r : Runner) : (r.event .step).Performed := by
  cases hend : r.isFinished with
  | true =>
    have hfail : r.step = (.error (.machine .exhausted), r) := by
      rw [Runner.step, Machine.step_of_atEnd hend]
    unfold Runner.event Runner.perform
    rw [hfail]
    exact .exhausted hend
  | false =>
    obtain ⟨done, next, hstep⟩ := Runner.exists_step hend
    unfold Runner.event Runner.perform
    rw [hstep]
    exact .stepped hend hstep

theorem performed_run {r : Runner} {op : Operation} {budget : Nat}
    (h : op.budget? r.config = some budget) : (r.event op).Performed := by
  obtain ⟨halt?, t, hrun, hran⟩ := r.ran_runFor budget
  unfold Runner.event
  rw [Runner.perform_of_budget? h, hrun]
  exact .ran h hrun hran

theorem performed (r : Runner) (op : Operation) : (r.event op).Performed := by
  cases op with
  | step => exact performed_step r
  | runFor _ | tick | run _ => exact performed_run rfl
  | pause => exact .pause
  | resume => exact .resume
  | reset => exact .reset
  | rewindInput => exact .rewindInput
  | takeOutput => exact .takeOutput

variable {e : Event}

theorem executed_of_budget? {budget : Nat} (h : e.operation.budget? e.before.config = some budget) :
    e.executed = e.before.course budget := by
  obtain ⟨hstep, -⟩ := Operation.of_budget?_eq_some h
  unfold executed
  rw [if_neg hstep, h]
  rfl

theorem Performed.ran_step (h : e.Performed) (hop : e.operation = .step) :
    e.before.Ran e.executed none e.after := by
  have hsteps : e.executed = (e.before.machine.steps 1).1 := if_pos hop
  rw [hsteps]
  cases h with
  | exhausted hend =>
    rw [Machine.steps_of_atEnd hend]
    exact .refl _ (by simp)
  | stepped hend hstep =>
    rw [Machine.steps_of_step (Runner.step_eq_ok hstep).1]
    exact .cons hstep (.refl _ (by simp))
  | ran hbudget hrun hran => exact absurd hop (Operation.of_budget?_eq_some hbudget).1
  | pause | resume | reset | rewindInput | takeOutput => cases hop

theorem Performed.steps_after (h : e.Performed) : e.after.steps =
    if e.operation.resets then 0 else e.before.steps + e.executed.length := by
  cases h with
  | exhausted hend => exact ((Performed.exhausted hend).ran_step rfl).steps
  | stepped hend hstep => exact ((Performed.stepped hend hstep).ran_step rfl).steps
  | ran hbudget hrun hran =>
    obtain ⟨-, -, hresets, -⟩ := Operation.of_budget?_eq_some hbudget
    rw [executed_of_budget? hbudget, hresets]
    exact hran.steps
  | pause | resume | reset | rewindInput | takeOutput => rfl

theorem Performed.paused_after (h : e.Performed) : e.after.paused = true ↔
    e.operation.releases = false ∧ (e.before.paused = true ∨ e.Pauses) := by
  cases h with
  | exhausted hend => simp [Operation.releases, Pauses]
  | stepped hend hstep =>
    obtain ⟨-, hpaused, -⟩ := Runner.step_fields hstep
    simp [Operation.releases, Pauses, hpaused]
  | ran hbudget hrun hran =>
    obtain ⟨-, hpause, -, hreleases⟩ := Operation.of_budget?_eq_some hbudget
    simp [Pauses, hran.paused, hpause, hreleases]
  | pause => simp [Operation.releases, Pauses, Runner.pause]
  | resume => simp [Operation.releases, Runner.resume]
  | reset => simp [Operation.releases, Runner.reset]
  | rewindInput => simp [Operation.releases, Pauses, Runner.rewindInput]
  | takeOutput => simp [Operation.releases, Pauses, Runner.takeOutput]

theorem Performed.inBounds_after (h : e.Performed) {program : Program}
    (hbefore : e.before.machine.InBounds program) : e.after.machine.InBounds program := by
  have hexecuted {executed : List Step} {halt? : Option Halt}
      (hran : e.before.Ran executed halt? e.after) : e.after.machine.InBounds program := by
    have hsteps := hbefore.steps executed.length
    rwa [hran.machine] at hsteps
  cases h with
  | exhausted hend => exact hbefore
  | stepped hend hstep => exact hexecuted ((Performed.stepped hend hstep).ran_step rfl)
  | ran hbudget hrun hran => exact hexecuted hran
  | reset => exact ⟨hbefore.program_eq, Nat.zero_le _⟩
  | pause | resume | rewindInput | takeOutput => exact ⟨hbefore.program_eq, hbefore.pc_le⟩

/-- What holds of the answer and of the runner after an operation, whatever was done before it. -/
structure Lawful (e : Event) : Prop where
  step_executes : e.operation = .step → e.before.Ran e.executed none e.after
  /-- A step fails at the end of the program only, and then changes nothing. -/
  step_fails : e.operation = .step → e.before.isFinished = true →
    e.answer = .failed (.machine .exhausted) ∧ e.after = e.before
  step_succeeds : e.operation = .step → e.before.isFinished = false → ∃ done, e.answer = .stepped done
  /-- A run does not fail. -/
  run_executes : (e.operation.budget? e.before.config).isSome = true →
    ∃ halt?, e.answer = .ran halt? ∧ e.before.Ran e.executed halt? e.after
  run_limit : (e.operation.budget? e.before.config).isSome = true →
    ∀ limit, e.before.config.stepLimit = some limit →
      e.after.steps = e.before.steps ∨ e.after.steps ≤ limit
  run_paused : (e.operation.budget? e.before.config).isSome = true → e.before.paused = true →
    e.answer = .ran (some .paused) ∧ e.after = e.before

theorem lawful_step (h : e.Performed) (hop : e.operation = .step) : e.Lawful := by
  have hnot : ¬(e.operation.budget? e.before.config).isSome = true := by
    rw [hop]
    exact Bool.false_ne_true
  refine ⟨fun _ => h.ran_step hop, fun _ hend => ?_, fun _ hend => ?_, fun hno => absurd hno hnot,
    fun hno => absurd hno hnot, fun hno => absurd hno hnot⟩
  · cases h with
    | exhausted _ => exact ⟨rfl, rfl⟩
    | stepped hgoes _ => cases hend.symm.trans hgoes
    | ran hbudget _ _ => exact absurd (Option.isSome_of_eq_some hbudget) hnot
    | pause | resume | reset | rewindInput | takeOutput => cases hop
  · cases h with
    | exhausted hstops => cases hend.symm.trans hstops
    | stepped _ _ => exact ⟨_, rfl⟩
    | ran hbudget _ _ => exact absurd (Option.isSome_of_eq_some hbudget) hnot
    | pause | resume | reset | rewindInput | takeOutput => cases hop

theorem lawful_run {r t : Runner} {op : Operation} {budget : Nat} {halt? : Option Halt}
    (hbudget : op.budget? r.config = some budget) (hrun : r.runFor budget = (.ok halt?, t))
    (hran : r.Ran (r.course budget) halt? t) : Lawful ⟨op, r, .ran halt?, t⟩ := by
  obtain ⟨hstep, -⟩ := Operation.of_budget?_eq_some hbudget
  refine ⟨fun hop => absurd hop hstep, fun hop => absurd hop hstep, fun hop => absurd hop hstep,
    fun _ => ⟨halt?, rfl, ?_⟩, fun _ limit hlimit => ?_, fun _ hpaused => ?_⟩
  · rw [executed_of_budget? hbudget]
    exact hran
  · have hsteps := hran.steps
    have hlength := r.length_course_le budget
    have hleft : r.allowance budget ≤ limit - r.steps := Runner.allowance_le hlimit budget
    dsimp only
    omega
  · have hidle : r.runFor budget = (.ok (some .paused), r) := if_pos hpaused
    rw [hidle] at hrun
    obtain ⟨rfl, rfl⟩ := okPair_inj hrun
    exact ⟨rfl, rfl⟩

theorem Performed.lawful (h : e.Performed) : e.Lawful := by
  cases h with
  | exhausted hend => exact lawful_step (.exhausted hend) rfl
  | stepped hend hstep => exact lawful_step (.stepped hend hstep) rfl
  | ran hbudget hrun hran => exact lawful_run hbudget hrun hran
  | pause | resume | reset | rewindInput | takeOutput =>
    exact ⟨nofun, nofun, nofun, nofun, nofun, nofun⟩

end Event

namespace Runner

theorem inBounds_afterAll {r : Runner} {program : Program} (h : r.machine.InBounds program)
    (ops : List Operation) : (r.afterAll ops).machine.InBounds program := by
  induction ops using List.reverseRecOn with
  | nil => exact h
  | append_singleton ops op ih =>
    rw [afterAll_concat]
    exact (Event.performed (r.afterAll ops) op).inBounds_after ih

theorem steps_afterAll {r : Runner} (h : r.steps = 0) (ops : List Operation) :
    (r.afterAll ops).steps =
      ((sinceLast Operation.resets (r.events ops)).flatMap Event.executed).length := by
  induction ops using List.reverseRecOn with
  | nil => exact h
  | append_singleton ops op ih =>
    rw [afterAll_concat, events_concat, sinceLast_concat,
      (Event.performed (r.afterAll ops) op).steps_after]
    split
    · rfl
    · rw [List.flatMap_append, List.length_append, ← ih, List.flatMap_singleton]
      rfl

theorem paused_afterAll {r : Runner} (h : r.paused = false) (ops : List Operation) :
    (r.afterAll ops).paused = true ↔
      ∃ e ∈ sinceLast Operation.releases (r.events ops), e.Pauses := by
  induction ops using List.reverseRecOn with
  | nil =>
    change r.paused = true ↔ ∃ e ∈ ([] : List Event), e.Pauses
    simp [h]
  | append_singleton ops op ih =>
    rw [afterAll_concat, events_concat, sinceLast_concat,
      (Event.performed (r.afterAll ops) op).paused_after]
    change _ ∧ ((r.afterAll ops).paused = true ∨ _) ↔ _
    rw [ih]
    cases ((r.afterAll ops).event op).operation.releases with
    | true => simp
    | false => simp [or_and_right, exists_or]

/-- What every operation gives is true of each of them. -/
theorem forall_events {gives : Event → Prop} (h : ∀ (r : Runner) op, gives (r.event op)) (r : Runner)
    (ops : List Operation) : ∀ e ∈ r.events ops, gives e := by
  induction ops generalizing r with
  | nil => exact fun _ hno => absurd hno List.not_mem_nil
  | cons op later ih =>
    intro e he
    rcases List.mem_cons.mp he with rfl | he
    · exact h r op
    · exact ih _ e he

theorem lawful_events (r : Runner) (ops : List Operation) : ∀ e ∈ r.events ops, e.Lawful :=
  forall_events (fun r op => (Event.performed r op).lawful) r ops

/-- A runner at the start of any program takes any operations in any order. It stays within the
program, counts the steps since the last reset, is paused by a pause or a breakpoint until it is
resumed or reset, and every answer on the way is lawful. -/
theorem operations_keep_invariant (program : Program) (input : Input) (output : Output)
    (config : RunConfig) (hpos : 0 < config.stepsPerTick) :
    ∃ first, Runner.start { program, input, output } config = .ok first ∧
      ∀ ops : List Operation,
        (first.afterAll ops).state.pc ≤ program.size ∧
        ((first.afterAll ops).isFinished = true ↔
          (first.afterAll ops).state.pc = program.size) ∧
        (first.afterAll ops).steps =
          ((sinceLast Operation.resets (first.events ops)).flatMap Event.executed).length ∧
        ((first.afterAll ops).paused = true ↔
          ∃ e ∈ sinceLast Operation.releases (first.events ops), e.Pauses) ∧
        ∀ e ∈ first.events ops, e.Lawful := by
  refine ⟨_, Runner.start_eq hpos _, fun ops => ?_⟩
  have hstart : Machine.InBounds program { program, input, output } := ⟨rfl, Nat.zero_le _⟩
  have hbounds := inBounds_afterAll (r := { machine := { program, input, output }, config }) hstart ops
  exact ⟨hbounds.pc_le, hbounds.atEnd_iff, steps_afterAll rfl ops, paused_afterAll rfl ops,
    lawful_events _ ops⟩

end Runner

theorem counting_operations :
    ∃ first, Runner.start { program := counting } ⟨true, true, some 7, 2⟩ = .ok first ∧
      (first.afterAll [.tick, .tick, .step, .tick]).steps = 4 ∧
      ((sinceLast Operation.resets (first.events [.tick, .tick, .step, .tick])).flatMap
        Event.executed).length = 4 ∧
      (∃ e ∈ sinceLast Operation.releases (first.events [.tick, .tick, .step, .tick]), e.Pauses) ∧
      (first.afterAll [.tick, .step, .reset, .run 0]).steps = 3 ∧
      ((sinceLast Operation.resets (first.events [.tick, .step, .reset, .run 0])).flatMap
        Event.executed).length = 3 := by
  obtain ⟨first, hfirst, hall⟩ := Runner.operations_keep_invariant counting .exhausted {}
    ⟨true, true, some 7, 2⟩ (by decide)
  obtain rfl := Except.ok.inj hfirst
  obtain ⟨-, -, hsteps, hpaused, -⟩ := hall [.tick, .tick, .step, .tick]
  obtain ⟨-, -, hagain, -, -⟩ := hall [.tick, .step, .reset, .run 0]
  refine ⟨_, rfl, ?_, ?_, hpaused.mp ?_, ?_, ?_⟩
  · decide +kernel
  · rw [← hsteps]
    decide +kernel
  · decide +kernel
  · decide +kernel
  · rw [← hagain]
    decide +kernel

end AccumulatorMachine
