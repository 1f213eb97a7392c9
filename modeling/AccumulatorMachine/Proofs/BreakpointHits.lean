import AccumulatorMachine.Proofs.ControlTransfer
import AccumulatorMachine.Proofs.Operations

/-!
What is seen at breakpoints. A runner keeps the states right behind the instructions with a breakpoint,
each one every time it is executed, no matter which operations led there, whether they stopped and why.
When a run halts at a breakpoint, the state it gives is the last one seen, and the machine is in it.
-/
namespace AccumulatorMachine

namespace Machine

/-- The next instruction has a breakpoint. -/
def breaksNext (m : Machine) : Bool :=
  (m.program.get? m.state.pc).any Instruction.breakpoint

/-- The states right behind the breakpoints among the next `count` instructions. -/
def statesBehind (m : Machine) (count : Nat) : List State :=
  (List.range count).filterMap fun made =>
    if (m.steps made).2.breaksNext then some (m.steps (made + 1)).2.state else none

variable {m next : Machine} {done : Step}

theorem hit?_step (h : m.step = (.ok done, next)) :
    done.hit? = if m.breaksNext then some next.state else none := by
  obtain ⟨i, hget, hdone, -⟩ := step_eq_ok h
  have hbreaks : m.breaksNext = done.breakpoint := by
    unfold breaksNext
    rw [hget, hdone]
    rfl
  unfold Step.hit?
  rw [after_step h, hbreaks]

theorem statesBehind_of_step (h : m.step = (.ok done, next)) (count : Nat) :
    m.statesBehind (count + 1) = done.hit?.toList ++ next.statesBehind count := by
  have hlater (made : Nat) : (m.steps (made + 1)).2 = (next.steps made).2 := by
    rw [steps_of_step h]
  have hfirst : (m.steps 0).2 = m := rfl
  have hsecond : (next.steps 0).2 = next := rfl
  unfold statesBehind
  rw [List.range_succ_eq_map, List.filterMap_cons, List.filterMap_map, hit?_step h]
  simp only [Function.comp_def, Nat.succ_eq_add_one, hlater, hfirst, hsecond]
  cases m.breaksNext with
  | true => rfl
  | false => rfl

theorem statesBehind_of_atEnd (h : m.atEnd = true) (count : Nat) : m.statesBehind count = [] := by
  have hnone : m.program.get? m.state.pc = none :=
    Array.getElem?_eq_none (of_decide_eq_true h)
  unfold statesBehind
  apply List.filterMap_eq_nil_iff.mpr
  intro made _
  rw [steps_of_atEnd h]
  unfold breaksNext
  rw [hnone]
  rfl

/-- The states behind the breakpoints are those that the steps show. -/
theorem statesBehind_eq (m : Machine) (count : Nat) :
    m.statesBehind count = (m.steps count).1.flatMap fun done => done.hit?.toList := by
  induction count generalizing m with
  | zero => rfl
  | succ count ih =>
    cases hend : m.atEnd with
    | true => rw [statesBehind_of_atEnd hend, steps_of_atEnd hend, List.flatMap_nil]
    | false =>
      obtain ⟨done, next, h⟩ := exists_step hend
      rw [statesBehind_of_step h, steps_of_step h, List.flatMap_cons, ih next]

end Machine

namespace Runner

variable {r t : Runner} {executed : List Step} {halt? : Option Halt}

theorem Ran.hits_eq (h : r.Ran executed halt? t) :
    t.hits = r.hits ++ r.machine.statesBehind executed.length := by
  rw [h.hits, Machine.statesBehind_eq, h.machine]

/-- A halt at a breakpoint has its reason in the steps of the run: a runner that was paused before gives
another. -/
theorem haltAfter_of_runFor {budget : Nat} {state : State}
    (h : r.runFor budget = (.ok (some (.breakpoint state)), t)) :
    r.haltAfter budget (r.course budget).length = some (.breakpoint state) := by
  unfold runFor at h
  cases hpaused : r.paused with
  | true =>
    rw [hpaused, if_pos rfl] at h
    cases h
  | false =>
    rw [hpaused, if_neg Bool.false_ne_true] at h
    obtain ⟨last, hrun, -⟩ := ran_advance hpaused budget
    exact (okPair_inj (hrun.symm.trans h)).1

theorem state_of_haltAfter {budget made : Nat} {state : State}
    (h : r.haltAfter budget made = some (.breakpoint state)) :
    r.BreaksAt made ∧ (r.machine.steps made).2.state = state := by
  have hbreaks : r.BreaksAt made := (haltAfter_eq_breakpoint_iff r budget made).mp ⟨state, h⟩
  unfold haltAfter at h
  rw [if_pos hbreaks] at h
  exact ⟨hbreaks, Halt.breakpoint.inj (Option.some.inj h)⟩

/-- A run that halts at a breakpoint has seen the state it gives last of all, and is in it. -/
theorem Ran.seen_of_breakpoint {budget : Nat} {state : State}
    (hran : r.Ran (r.course budget) (some (.breakpoint state)) t)
    (hrun : r.runFor budget = (.ok (some (.breakpoint state)), t)) :
    t.hits.getLast? = some state ∧ t.state = state := by
  obtain ⟨hbreaks, hstate⟩ := state_of_haltAfter (haltAfter_of_runFor hrun)
  have hmachine : t.state = state := by
    rw [hran.machine] at hstate
    exact hstate
  rw [breaksAt_length_iff hran.machine] at hbreaks
  obtain ⟨last, hlast, hstops⟩ := (Option.any_eq_true _ _).mp hbreaks
  have hafter : last.after = state := by
    have hsteps := r.machine.state_steps (r.course budget).length
    rw [hran.machine, hlast] at hsteps
    exact hsteps.symm.trans hmachine
  have hhit : last.hit? = some state := by
    unfold Step.hit?
    rw [(Bool.and_eq_true_iff.mp hstops).1, hafter]
    rfl
  refine ⟨?_, hmachine⟩
  obtain ⟨others, hcourse⟩ := List.getLast?_eq_some_iff.mp hlast
  rw [hran.hits, hcourse, List.flatMap_append, List.flatMap_singleton, hhit, ← List.append_assoc]
  exact List.getLast?_concat

end Runner

namespace Event

variable {e : Event}

/-- The operation executes instructions: a step, or a run. -/
def Executes (e : Event) : Prop :=
  e.operation = .step ∨ (e.operation.budget? e.before.config).isSome = true

/-- What an operation executes, and what is seen of it. -/
structure Observed (e : Event) : Prop where
  hits : e.after.hits = e.before.hits ++ e.before.machine.statesBehind e.executed.length
  /-- The machine is led over the executed instructions, and over no other. -/
  executes : e.Executes →
    e.before.machine.steps e.executed.length = (e.executed, e.after.machine)
  idle : ¬e.Executes → e.executed = []
  /-- Each executed instruction is counted, also one that leaves the machine as it was. -/
  counts : e.after.steps =
    if e.operation.resets then 0 else e.before.steps + e.executed.length
  /-- A state seen behind a jump is at its target, and one behind a fault at the next index. -/
  transfers : ∀ made done, e.executed[made]? = some done →
    ∃ i, (e.before.machine.steps made).2.program.get? (e.before.machine.steps made).2.state.pc =
        some i ∧
      (e.before.machine.steps made).2.Transfers i done (e.before.machine.steps (made + 1)).2
  breakpoint : ∀ state, e.answer = .ran (some (.breakpoint state)) →
    e.after.hits.getLast? = some state ∧ e.after.state = state

theorem executed_of_not_executes (h : ¬e.Executes) : e.executed = [] := by
  unfold Executes at h
  rw [not_or, Option.not_isSome_iff_eq_none] at h
  unfold executed
  rw [if_neg h.1, h.2]
  rfl

theorem Performed.exists_ran (h : e.Performed) (hexecutes : e.Executes) :
    ∃ halt?, e.before.Ran e.executed halt? e.after := by
  rcases hexecutes with hstep | hrun
  · exact ⟨none, h.ran_step hstep⟩
  · obtain ⟨halt?, -, hran⟩ := h.lawful.run_executes hrun
    exact ⟨halt?, hran⟩

/-- An operation that executes nothing shows nothing, and forgets nothing that was shown. -/
theorem Performed.hits_of_not_executes (h : e.Performed) (hidle : ¬e.Executes) :
    e.after.hits = e.before.hits := by
  cases h with
  | exhausted _ | stepped _ _ => exact absurd (Or.inl rfl) hidle
  | ran hbudget _ _ => exact absurd (Or.inr (Option.isSome_of_eq_some hbudget)) hidle
  | pause | resume | reset | rewindInput | takeOutput => rfl

theorem Performed.hits_after (h : e.Performed) :
    e.after.hits = e.before.hits ++ e.before.machine.statesBehind e.executed.length := by
  by_cases hexecutes : e.Executes
  · obtain ⟨halt?, hran⟩ := h.exists_ran hexecutes
    exact hran.hits_eq
  · rw [executed_of_not_executes hexecutes, h.hits_of_not_executes hexecutes]
    exact (List.append_nil _).symm

theorem Performed.transfers (h : e.Performed) {made : Nat} {done : Step}
    (hdone : e.executed[made]? = some done) :
    ∃ i, (e.before.machine.steps made).2.program.get? (e.before.machine.steps made).2.state.pc =
        some i ∧
      (e.before.machine.steps made).2.Transfers i done (e.before.machine.steps (made + 1)).2 := by
  by_cases hexecutes : e.Executes
  · obtain ⟨halt?, hran⟩ := h.exists_ran hexecutes
    have hsteps : (e.before.machine.steps e.executed.length).1[made]? = some done := by
      rw [hran.machine]
      exact hdone
    exact Machine.transfers_of_step (Machine.step_of_getElem? hsteps)
  · rw [executed_of_not_executes hexecutes] at hdone
    cases hdone

theorem Performed.seen_of_breakpoint (h : e.Performed) {state : State}
    (hanswer : e.answer = .ran (some (.breakpoint state))) :
    e.after.hits.getLast? = some state ∧ e.after.state = state := by
  cases h with
  | ran hbudget hrun hran =>
    obtain rfl := Answer.ran.inj hanswer
    exact hran.seen_of_breakpoint hrun
  | exhausted _ | stepped _ _ | pause | resume | reset | rewindInput | takeOutput => cases hanswer

theorem Performed.observed (h : e.Performed) : e.Observed where
  hits := h.hits_after
  executes hexecutes := by
    obtain ⟨halt?, hran⟩ := h.exists_ran hexecutes
    exact hran.machine
  idle := executed_of_not_executes
  counts := h.steps_after
  transfers _ _ := h.transfers
  breakpoint _ := h.seen_of_breakpoint

end Event

namespace Runner

theorem hits_afterAll (r : Runner) (ops : List Operation) : (r.afterAll ops).hits =
    r.hits ++ (r.events ops).flatMap fun e => e.before.machine.statesBehind e.executed.length := by
  induction ops generalizing r with
  | nil => exact (List.append_nil _).symm
  | cons op later ih =>
    have hfirst := (Event.performed r op).hits_after
    calc (r.afterAll (op :: later)).hits
      _ = ((r.event op).after.afterAll later).hits := rfl
      _ = (r.event op).after.hits ++ ((r.event op).after.events later).flatMap
          fun e => e.before.machine.statesBehind e.executed.length := ih _
      _ = r.hits ++ (r.events (op :: later)).flatMap
          fun e => e.before.machine.statesBehind e.executed.length := by
        rw [hfirst, events, List.flatMap_cons, List.append_assoc]
        rfl

/-- What a runner has seen is, in order and once each, the states right behind the executed instructions
that have a breakpoint. It does not matter what was asked of the runner in between, nor whether it stops
at breakpoints. A halt at a breakpoint gives the state that was seen last, which is the current one. -/
theorem hits_are_states_behind_breakpoints (program : Program) (input : Input) (output : Output)
    (config : RunConfig) {first : Runner}
    (hfirst : Runner.start { program, input, output } config = .ok first) (ops : List Operation) :
    (first.afterAll ops).hits =
      (first.events ops).flatMap (fun e => e.before.machine.statesBehind e.executed.length) ∧
    ∀ e ∈ first.events ops, e.Observed := by
  have hnone : first.hits = [] := by
    unfold start at hfirst
    split at hfirst
    · cases hfirst
    · rw [← Except.ok.inj hfirst]
      rfl
  refine ⟨?_, forall_events (fun r op => (Event.performed r op).observed) first ops⟩
  rw [hits_afterAll, hnone, List.nil_append]

end Runner

/-- Counts down from two, with a breakpoint on the jump of the loop and on a jump to nowhere. -/
def watched : Program :=
  .ofInstructions #[⟨.assign, some (.literal 2), false, none⟩,
    ⟨.add, some (.literal (-1)), false, none⟩,
    ⟨.jumpIfPositive, some (.literal 1), true, none⟩, ⟨.jump, some (.literal 9), true, none⟩]

theorem watched_hits :
    ∃ first, Runner.start { program := watched } { stopAtBreakpoints := true } = .ok first ∧
      (first.afterAll [.run 0, .step, .tick, .resume, .run 0, .step, .reset, .runFor 3]).hits =
        [⟨1, [], 1⟩, ⟨0, [], 3⟩, ⟨0, [], 4⟩, ⟨1, [], 1⟩] ∧
      ∀ e ∈ first.events [.run 0, .step, .tick, .resume, .run 0, .step, .reset, .runFor 3],
        e.Observed := by
  obtain ⟨hhits, hobserved⟩ := Runner.hits_are_states_behind_breakpoints watched .exhausted {}
    { stopAtBreakpoints := true } rfl
    [.run 0, .step, .tick, .resume, .run 0, .step, .reset, .runFor 3]
  refine ⟨_, rfl, hhits.trans ?_, hobserved⟩
  decide +kernel

end AccumulatorMachine
