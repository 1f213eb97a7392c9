import AccumulatorMachine.Host
import AccumulatorMachine.Proofs.Execution
import Mathlib.Data.List.Infix

/-!
How a run is cut into ticks makes no difference. The progress of a run is what it has come to, apart
from how much of its output was passed on already. Ticks of any size and stops at breakpoints lead
through the same progress, to the end that one uninterrupted run has.
-/
namespace AccumulatorMachine

structure Progress where
  program : Program
  state : State
  input : Input
  /-- All that was written, passed on or not. -/
  written : String
  steps : Nat

namespace Progress

def atEnd (v : Progress) : Bool :=
  v.state.atEnd v.program

/-- The progress after the next instruction. -/
def next? (v : Progress) : Option Progress :=
  match (Machine.mk v.program v.state v.input {}).step with
  | (.error _, _) => none
  | (.ok _, m) => some ⟨m.program, m.state, m.input, v.written ++ m.output.contents, v.steps + 1⟩

end Progress

/-- The progress of a runner of whose output some was passed on. -/
def Runner.progress (r : Runner) (printed : String) : Progress where
  program := r.machine.program
  state := r.machine.state
  input := r.machine.input
  written := printed ++ r.machine.output.contents
  steps := r.steps

/-- The end that uninterrupted progress comes to under a limit on its steps. -/
inductive RunsTo (limit : Option Nat) : Progress → Halt → Progress → Prop
  | finished {v : Progress} (hend : v.atEnd = true) : RunsTo limit v .finished v
  | stepLimit {v : Progress} (hend : v.atEnd = false)
    (hlimit : (limit.any fun bound => decide (bound ≤ v.steps)) = true) :
    RunsTo limit v .stepLimit v
  | step {v w u : Progress} {halt : Halt} (hend : v.atEnd = false)
    (hlimit : (limit.any fun bound => decide (bound ≤ v.steps)) = false)
    (hnext : v.next? = some w) (hrest : RunsTo limit w halt u) : RunsTo limit v halt u

theorem Output.contents_put (o : Output) (written : List Emission) :
    (o.put written).contents = o.contents ++ String.join (written.map Emission.text) := by
  unfold Output.contents
  rw [Output.items_put, List.map_append, String.join_append]

namespace Machine

/-- The machine without its output. -/
def drained (m : Machine) : Machine :=
  { m with output := {} }

theorem eq_of_drained_eq {m n : Machine} (h : m.drained = n.drained) :
    m.state = n.state ∧ m.program = n.program := by
  obtain ⟨hprogram, hstate, -, -⟩ := Machine.mk.inj h
  exact ⟨hstate, hprogram⟩

/-- A machine without its output makes the same steps, and then its output is what they wrote. -/
theorem steps_drained (m : Machine) (n : Nat) :
    (m.drained.steps n).1 = (m.steps n).1 ∧
    (m.drained.steps n).2.drained = (m.steps n).2.drained ∧
    (m.steps n).2.output.contents = m.output.contents ++ (m.drained.steps n).2.output.contents := by
  obtain ⟨written, houtput, hsame⟩ := m.steps_output n
  unfold drained
  rw [hsame {}, houtput, Output.contents_put]
  refine ⟨rfl, rfl, ?_⟩
  rw [Output.contents_put]
  rfl

end Machine

theorem Runner.exists_step {r : Runner} (h : r.isFinished = false) :
    ∃ done next, r.step = (.ok done, next) := by
  obtain ⟨done, machine, hstep⟩ := Machine.exists_step h
  unfold Runner.step
  rw [hstep]
  exact ⟨_, _, rfl⟩

/-- All that a step changes. -/
theorem Runner.step_eq_ok {r next : Runner} {done : Step} (h : r.step = (.ok done, next)) :
    r.machine.step = (.ok done, next.machine) ∧ next = { r with
      machine := next.machine
      steps := r.steps + 1
      seen := done.hit?.toList ++ r.seen
      noted := (done.notes r.config.trace).reverse ++ r.noted } := by
  unfold Runner.step at h
  split at h
  · cases h
  · rename_i hstep
    obtain ⟨rfl, rfl⟩ := okPair_inj h
    exact ⟨hstep, rfl⟩

theorem Runner.next?_progress {r next : Runner} {done : Step} (h : r.step = (.ok done, next))
    (printed : String) : (r.progress printed).next? = some (next.progress printed) := by
  obtain ⟨hstep, hnext⟩ := Runner.step_eq_ok h
  have hsteps : next.steps = r.steps + 1 := congrArg Runner.steps hnext
  obtain ⟨written, houtput, hany⟩ := Machine.step_output hstep
  have hempty := hany {}
  unfold Progress.next? Runner.progress
  dsimp only
  rw [hempty]
  dsimp only
  rw [houtput, hsteps, Output.contents_put, Output.contents_put, String.append_assoc]
  rfl

namespace RunsTo

variable {limit : Option Nat} {v u u' : Progress} {halt halt' : Halt}

theorem unique (h : RunsTo limit v halt u) (h' : RunsTo limit v halt' u') :
    halt = halt' ∧ u = u' := by
  induction h with
  | finished hend =>
    cases h' with
    | finished _ => exact ⟨rfl, rfl⟩
    | stepLimit hend' _ | step hend' _ _ _ => cases hend.symm.trans hend'
  | stepLimit hend hlimit =>
    cases h' with
    | finished hend' => cases hend'.symm.trans hend
    | stepLimit _ _ => exact ⟨rfl, rfl⟩
    | step _ hlimit' _ _ => cases hlimit.symm.trans hlimit'
  | step hend hlimit hnext _ ih =>
    cases h' with
    | finished hend' => cases hend'.symm.trans hend
    | stepLimit _ hlimit' => cases hlimit'.symm.trans hlimit
    | step _ _ hnext' hrest' =>
      obtain rfl := Option.some.inj (hnext.symm.trans hnext')
      exact ih hrest'

theorem step_iff {w : Progress} (hend : v.atEnd = false)
    (hlimit : (limit.any fun bound => decide (bound ≤ v.steps)) = false)
    (hnext : v.next? = some w) : RunsTo limit v halt u ↔ RunsTo limit w halt u := by
  constructor
  · intro h
    cases h with
    | finished hend' => cases hend'.symm.trans hend
    | stepLimit _ hlimit' => cases hlimit'.symm.trans hlimit
    | step _ _ hnext' hrest =>
      obtain rfl := Option.some.inj (hnext.symm.trans hnext')
      exact hrest
  · exact .step hend hlimit hnext

theorem steps_next {w : Progress} (hnext : v.next? = some w) : w.steps = v.steps + 1 := by
  unfold Progress.next? at hnext
  split at hnext
  · cases hnext
  · rw [← Option.some.inj hnext]

theorem steps_le (h : RunsTo limit v halt u) : v.steps ≤ u.steps := by
  induction h with
  | finished _ | stepLimit _ _ => exact Nat.le_refl _
  | step _ _ hnext _ ih =>
    have hsteps := steps_next hnext
    omega

theorem halt_eq (h : RunsTo limit v halt u) : halt = .finished ∨ halt = .stepLimit := by
  induction h with
  | finished _ => exact Or.inl rfl
  | stepLimit _ _ => exact Or.inr rfl
  | step _ _ _ _ ih => exact ih

end RunsTo

/-- What is seen of a run that has ended. -/
structure RunResult where
  halt : Halt
  steps : Nat
  state : State
  input : Input
  written : String
deriving DecidableEq

def Progress.result (u : Progress) (halt : Halt) : RunResult :=
  ⟨halt, u.steps, u.state, u.input, u.written⟩

/-- What is seen of a run, if it has ended. -/
def ended? {σ : Type} (seen : Halt → σ → RunResult) :
    Except RunError (Option Halt × σ) → Option RunResult
  | .ok (some halt, s) => some (seen halt s)
  | _ => none

/-- Goes on by ticks, at most as many as given, until one of them returns a reason to halt. -/
def runTicks {σ : Type} (tick : σ → Except RunError (Option Halt × σ)) (s : σ) :
    Nat → Except RunError (Option Halt × σ)
  | 0 => .ok (none, s)
  | ticks + 1 => match tick s with
    | .ok (none, next) => runTicks tick next ticks
    | done => done

/-- What a tick may do under a limit: come to the end that uninterrupted progress comes to, or make
some progress on the way there. -/
inductive TickOf (limit : Option Nat) {σ : Type} (progress : σ → Progress) (ready : σ → Prop)
    (s : σ) : Except RunError (Option Halt × σ) → Prop
  | halted {halt : Halt} {t : σ} (hruns : RunsTo limit (progress s) halt (progress t)) :
    TickOf limit progress ready s (.ok (some halt, t))
  | going {t : σ} (hready : ready t) (hmore : (progress s).steps < (progress t).steps)
    (hsame : ∀ halt u, RunsTo limit (progress s) halt u ↔ RunsTo limit (progress t) halt u) :
    TickOf limit progress ready s (.ok (none, t))

section Loop

variable {limit : Option Nat} {σ : Type} {progress : σ → Progress} {ready : σ → Prop}
  {tick : σ → Except RunError (Option Halt × σ)}

theorem runTicks_sound (htick : ∀ s, ready s → TickOf limit progress ready s (tick s)) {s : σ}
    (hs : ready s) (ticks : Nat) : ∃ halt? t, runTicks tick s ticks = .ok (halt?, t) ∧
      ∀ halt, halt? = some halt → RunsTo limit (progress s) halt (progress t) := by
  induction ticks generalizing s with
  | zero => exact ⟨none, s, rfl, fun _ hno => nomatch hno⟩
  | succ ticks ih =>
    unfold runTicks
    have hone := htick s hs
    generalize tick s = result at hone
    cases hone with
    | halted hruns =>
      refine ⟨_, _, rfl, fun halt heq => ?_⟩
      obtain rfl := Option.some.inj heq
      exact hruns
    | going hready hmore hsame =>
      obtain ⟨halt?, t, hrun, hruns⟩ := ih hready
      exact ⟨halt?, t, hrun, fun halt heq => (hsame _ _).mpr (hruns halt heq)⟩

/-- A loop ends within one tick more than there are steps to the end of uninterrupted progress. -/
theorem runTicks_ends (htick : ∀ s, ready s → TickOf limit progress ready s (tick s)) {s : σ}
    (hs : ready s) {halt : Halt} {u : Progress} (h : RunsTo limit (progress s) halt u) {ticks : Nat}
    (hticks : u.steps - (progress s).steps < ticks) :
    ∃ t, runTicks tick s ticks = .ok (some halt, t) ∧ progress t = u := by
  induction ticks generalizing s with
  | zero => exact absurd hticks (Nat.not_lt_zero _)
  | succ ticks ih =>
    have hone := htick s hs
    unfold runTicks
    generalize tick s = result at hone
    cases hone with
    | halted hruns =>
      obtain ⟨rfl, hu⟩ := hruns.unique h
      exact ⟨_, rfl, hu⟩
    | going hready hmore hsame =>
      have hrest := (hsame halt u).mp h
      have hle := hrest.steps_le
      exact ih hready hrest (by omega)

theorem runTicks_complete (htick : ∀ s, ready s → TickOf limit progress ready s (tick s)) {s : σ}
    (hs : ready s) {halt : Halt} {u : Progress} (h : RunsTo limit (progress s) halt u) :
    ∃ ticks t, runTicks tick s ticks = .ok (some halt, t) ∧ progress t = u :=
  ⟨_, runTicks_ends htick hs h (Nat.lt_succ_self _)⟩

/-- A loop whose end is seen as the progress it made has the results of uninterrupted progress. -/
theorem ended?_runTicks_iff {seen : Halt → σ → RunResult}
    (htick : ∀ s, ready s → TickOf limit progress ready s (tick s)) {s : σ} (hs : ready s)
    (hseen : ∀ ticks halt t, runTicks tick s ticks = .ok (some halt, t) →
      seen halt t = (progress t).result halt) (result : RunResult) :
    (∃ ticks, ended? seen (runTicks tick s ticks) = some result) ↔
      ∃ u, RunsTo limit (progress s) result.halt u ∧ u.result result.halt = result := by
  constructor
  · rintro ⟨ticks, h⟩
    obtain ⟨halt?, t, hrun, hruns⟩ := runTicks_sound htick hs ticks
    rw [hrun] at h
    cases halt? with
    | none => cases h
    | some halt =>
      have heq : seen halt t = result := Option.some.inj h
      rw [hseen ticks halt t hrun] at heq
      subst heq
      exact ⟨progress t, hruns halt rfl, rfl⟩
  · rintro ⟨u, hruns, hu⟩
    obtain ⟨ticks, t, hrun, rfl⟩ := runTicks_complete htick hs hruns
    refine ⟨ticks, ?_⟩
    rw [hrun, ← hu]
    exact congrArg some (hseen ticks _ t hrun)

theorem eq_runTicks {run : σ → Nat → Except RunError (Option Halt × σ)}
    (hzero : ∀ s, run s 0 = .ok (none, s))
    (hsucc : ∀ s ticks, run s (ticks + 1) = match tick s with
      | .ok (none, next) => run next ticks
      | done => done) (s : σ) (ticks : Nat) : run s ticks = runTicks tick s ticks := by
  induction ticks generalizing s with
  | zero => exact hzero s
  | succ ticks ih =>
    rw [hsucc]
    unfold runTicks
    split
    · exact ih _
    · rfl

end Loop

theorem Runner.step_fields {r next : Runner} {done : Step} (h : r.step = (.ok done, next)) :
    next.config = r.config ∧ next.paused = r.paused ∧ next.steps = r.steps + 1 := by
  obtain ⟨-, hnext⟩ := Runner.step_eq_ok h
  have hconfig : next.config = r.config := by rw [hnext]
  have hpaused : next.paused = r.paused := by rw [hnext]
  exact ⟨hconfig, hpaused, congrArg Runner.steps hnext⟩

/-- Both runners have the same way to go. -/
def Runner.SameEnd (r t : Runner) : Prop :=
  ∀ printed halt u, RunsTo r.config.stepLimit (r.progress printed) halt u ↔
    RunsTo r.config.stepLimit (t.progress printed) halt u

/-- What a run of at most so many steps can come to. -/
inductive Runner.Advanced (r : Runner) (budget : Nat) :
    Except RunError (Option Halt) × Runner → Prop
  | halted {halt : Halt} {t : Runner}
    (hruns : ∀ printed, RunsTo r.config.stepLimit (r.progress printed) halt (t.progress printed)) :
    Advanced r budget (.ok (some halt), t)
  | stopped {t : Runner} (hstop : r.config.stopAtBreakpoints = true) (hconfig : t.config = r.config)
    (hmore : r.steps < t.steps) (hsame : r.SameEnd t) :
    Advanced r budget (.ok (some (.breakpoint t.state)), t)
  | going {t : Runner} (hconfig : t.config = r.config) (hpaused : t.paused = r.paused)
    (hsteps : t.steps = r.steps + budget) (hsame : r.SameEnd t) :
    Advanced r budget (.ok none, t)

theorem Runner.sameEnd_step {r next : Runner} {done : Step} (hend : r.isFinished = false)
    (hlimit : r.limitReached = false) (h : r.step = (.ok done, next)) : r.SameEnd next := by
  intro printed halt u
  exact RunsTo.step_iff hend hlimit (Runner.next?_progress h printed)

theorem Runner.SameEnd.trans {r s t : Runner} (hrs : r.SameEnd s) (hst : s.SameEnd t)
    (hconfig : s.config = r.config) : r.SameEnd t := by
  intro printed halt u
  have hlater := hst printed halt u
  rw [hconfig] at hlater
  exact (hrs printed halt u).trans hlater

theorem Runner.advanced_advance (r : Runner) (budget : Nat) :
    r.Advanced budget (r.advance budget) := by
  induction budget generalizing r with
  | zero =>
    unfold Runner.advance
    cases hend : r.isFinished with
    | true => exact .halted fun printed => .finished hend
    | false => exact .going rfl rfl rfl fun _ _ _ => Iff.rfl
  | succ budget ih =>
    unfold Runner.advance
    cases hend : r.isFinished with
    | true => exact .halted fun printed => .finished hend
    | false =>
      rw [if_neg Bool.false_ne_true]
      cases hlimit : r.limitReached with
      | true => exact .halted fun printed => .stepLimit hend hlimit
      | false =>
        rw [if_neg Bool.false_ne_true]
        obtain ⟨done, next, hstep⟩ := Runner.exists_step hend
        obtain ⟨hconfig, hpaused, hsteps⟩ := Runner.step_fields hstep
        have hsame := Runner.sameEnd_step hend hlimit hstep
        rw [hstep]
        dsimp only
        by_cases hstop : (done.breakpoint && r.config.stopAtBreakpoints) = true
        · rw [if_pos hstop]
          have hstops : r.config.stopAtBreakpoints = true := (Bool.and_eq_true_iff.mp hstop).2
          have hmore : r.steps < next.steps := by omega
          exact .stopped (t := { next with paused := true }) hstops hconfig hmore hsame
        · rw [if_neg hstop]
          have hlater := ih next
          generalize next.advance budget = result at hlater
          cases hlater with
          | halted hruns =>
            refine .halted fun printed => (hsame printed _ _).mpr ?_
            rw [← hconfig]
            exact hruns printed
          | stopped hstops hconfig' hmore hsame' =>
            rw [hconfig] at hstops
            exact .stopped hstops (hconfig'.trans hconfig) (by omega)
              (hsame.trans hsame' hconfig)
          | going hconfig' hpaused' hsteps' hsame' =>
            exact .going (hconfig'.trans hconfig) (hpaused'.trans hpaused) (by omega)
              (hsame.trans hsame' hconfig)

def Host.progress (host : Host) : Progress :=
  host.runner.progress host.printed

/-- Passing on the output changes nothing in what was written. -/
theorem Runner.progress_takeOutput (r : Runner) (printed : String) :
    r.takeOutput.2.progress (printed ++ r.takeOutput.1) = r.progress printed := by
  unfold Runner.progress
  have hempty : (printed ++ r.takeOutput.1) ++ r.takeOutput.2.machine.output.contents =
      printed ++ r.machine.output.contents := by
    change (printed ++ r.machine.output.contents) ++ "" = _
    rw [String.append_empty]
  rw [hempty]
  rfl

structure Host.Ready (limit : Option Nat) (host : Host) : Prop where
  not_paused : host.runner.paused = false
  tick_pos : 0 < host.runner.config.stepsPerTick
  limit_eq : host.runner.config.stepLimit = limit

theorem Host.tickOf_going {limit : Option Nat} {host next : Host} {t : Runner}
    (h : host.Ready limit) (hconfig : t.config = host.runner.config)
    (hmore : host.runner.steps < t.steps) (hsame : host.runner.SameEnd t)
    (hprogress : next.progress = t.progress host.printed)
    (hnext : next.runner.config = t.config) (hpaused : next.runner.paused = false) :
    TickOf limit Host.progress (Host.Ready limit) host (.ok (none, next)) := by
  have hready : next.Ready limit := by
    refine ⟨hpaused, ?_, ?_⟩
    · rw [hnext, hconfig]
      exact h.tick_pos
    · rw [hnext, hconfig]
      exact h.limit_eq
  refine .going hready ?_ fun halt u => ?_
  · rw [hprogress]
    exact hmore
  · rw [hprogress, ← h.limit_eq]
    exact hsame host.printed halt u

theorem Host.tickOf_tick (limit : Option Nat) (host : Host) (h : host.Ready limit) :
    TickOf limit Host.progress (Host.Ready limit) host host.tick := by
  have htick : host.runner.tick = host.runner.advance host.runner.config.stepsPerTick := by
    unfold Runner.tick Runner.runFor
    rw [h.not_paused, if_neg Bool.false_ne_true]
  have hadvanced := host.runner.advanced_advance host.runner.config.stepsPerTick
  have hpos := h.tick_pos
  unfold Host.tick
  rw [htick]
  generalize host.runner.advance host.runner.config.stepsPerTick = result at hadvanced
  cases hadvanced with
  | halted hruns =>
    rename_i halt t
    have hend : RunsTo limit host.progress halt
        (t.takeOutput.2.progress (host.printed ++ t.takeOutput.1)) := by
      rw [Runner.progress_takeOutput, ← h.limit_eq]
      exact hruns host.printed
    rcases (hruns "").halt_eq with rfl | rfl
    · exact .halted hend
    · exact .halted hend
  | stopped hstop hconfig hmore hsame =>
    rename_i t
    exact Host.tickOf_going h hconfig hmore hsame (t.progress_takeOutput host.printed) rfl rfl
  | going hconfig hpaused hsteps hsame =>
    rename_i t
    have hmore : host.runner.steps < t.steps := by omega
    exact Host.tickOf_going h hconfig hmore hsame (t.progress_takeOutput host.printed) rfl
      (hpaused.trans h.not_paused)

theorem Host.run_eq_runTicks (host : Host) (ticks : Nat) :
    host.run ticks = runTicks Host.tick host ticks := by
  refine eq_runTicks (fun _ => rfl) (fun host ticks => ?_) host ticks
  rw [Host.run]
  rcases host.tick with _ | ⟨_ | _, _⟩ <;> rfl

structure Runner.Ready (limit : Option Nat) (r : Runner) : Prop where
  not_paused : r.paused = false
  no_stop : r.config.stopAtBreakpoints = false
  limit_eq : r.config.stepLimit = limit

/-- What a run returns, with the runner that it leaves behind. -/
def Runner.returned (result : Except RunError (Option Halt) × Runner) :
    Except RunError (Option Halt × Runner) :=
  result.1.map (·, result.2)

theorem Runner.tickOf_runFor (limit : Option Nat) (r : Runner) (h : r.Ready limit) :
    TickOf limit (Runner.progress · "") (Runner.Ready limit) r
      (Runner.returned (r.runFor (Decimal.wordLimit - 1))) := by
  have hadvanced := r.advanced_advance (Decimal.wordLimit - 1)
  have hrun : r.runFor (Decimal.wordLimit - 1) = r.advance (Decimal.wordLimit - 1) := by
    unfold Runner.runFor
    rw [h.not_paused, if_neg Bool.false_ne_true]
  rw [hrun]
  generalize r.advance (Decimal.wordLimit - 1) = result at hadvanced
  cases hadvanced with
  | halted hruns =>
    have hend := hruns ""
    rw [h.limit_eq] at hend
    exact .halted hend
  | stopped hstop hconfig hmore hsame => cases hstop.symm.trans h.no_stop
  | going hconfig hpaused hsteps hsame =>
    rename_i t
    have hpos : 0 < Decimal.wordLimit - 1 := by decide
    have hmore : r.steps < t.steps := by omega
    refine .going ⟨hpaused.trans h.not_paused, ?_, ?_⟩ hmore fun halt u => ?_
    · rw [hconfig, h.no_stop]
    · rw [hconfig, h.limit_eq]
    · have hiff := hsame "" halt u
      rwa [h.limit_eq] at hiff

theorem Runner.run_eq_runTicks (r : Runner) (rounds : Nat) :
    Runner.returned (r.run rounds) =
      runTicks (fun r => Runner.returned (r.runFor (Decimal.wordLimit - 1))) r rounds := by
  refine @eq_runTicks _ _ (fun r rounds => Runner.returned (r.run rounds)) (fun _ => rfl)
    (fun r rounds => ?_) r rounds
  rw [Runner.run]
  rcases r.runFor (Decimal.wordLimit - 1) with ⟨_ | _ | _, _⟩ <;> rfl

/-- A machine before its first instruction. -/
def Machine.fresh (program : Program) (text : String) : Machine :=
  { program, input := .ofString text }

/-- A host is seen by the output that it passed on. -/
def Host.outcome (halt : Halt) (host : Host) : RunResult :=
  ⟨halt, host.runner.steps, host.runner.state, host.runner.machine.input, host.printed⟩

def Runner.outcome (halt : Halt) (r : Runner) : RunResult :=
  ⟨halt, r.steps, r.state, r.machine.input, r.machine.output.contents⟩

/-- The result of running by ticks, if the run ends within the given number of them. -/
def Host.result? (machine : Machine) (config : RunConfig) (ticks : Nat) : Option RunResult :=
  ended? Host.outcome ((Host.start machine config).bind (·.run ticks))

/-- The result of one run, which leaves its output where it was written. -/
def Runner.result? (machine : Machine) (config : RunConfig) (rounds : Nat) : Option RunResult :=
  ended? Runner.outcome ((Runner.start machine config).bind fun r =>
    Runner.returned (r.run rounds))

/-- Running by ticks returns the result. -/
def Host.Returns (machine : Machine) (config : RunConfig) (result : RunResult) : Prop :=
  ∃ ticks, Host.result? machine config ticks = some result

/-- One run returns the result. -/
def Runner.Returns (machine : Machine) (config : RunConfig) (result : RunResult) : Prop :=
  ∃ rounds, Runner.result? machine config rounds = some result

theorem Runner.start_eq {config : RunConfig} (h : 0 < config.stepsPerTick) (machine : Machine) :
    Runner.start machine config = .ok { machine, config } := by
  unfold Runner.start
  rw [if_neg (by omega)]

theorem Host.start_eq {config : RunConfig} (h : 0 < config.stepsPerTick) (machine : Machine) :
    Host.start machine config = .ok { runner := { machine, config } } := by
  unfold Host.start
  rw [Runner.start_eq h]
  rfl

theorem Host.output_tick {host next : Host} {halt? : Option Halt}
    (h : host.tick = .ok (halt?, next)) : next.runner.machine.output = {} := by
  unfold Host.tick at h
  split at h
  · cases h
  · dsimp only at h
    split at h
    · obtain ⟨-, rfl⟩ := Prod.mk.inj (Except.ok.inj h)
      rfl
    · obtain ⟨-, rfl⟩ := Prod.mk.inj (Except.ok.inj h)
      rfl
    · obtain ⟨-, rfl⟩ := Prod.mk.inj (Except.ok.inj h)
      rfl

/-- Nothing that was written is left behind when a run by ticks ends. -/
theorem Host.output_run {host final : Host} {halt : Halt} {ticks : Nat}
    (h : host.run ticks = .ok (some halt, final)) : final.runner.machine.output = {} := by
  induction ticks generalizing host with
  | zero => cases h
  | succ ticks ih =>
    unfold Host.run at h
    split at h
    · exact ih h
    · exact Host.output_tick h

theorem Host.returns_iff (config : RunConfig) (hpos : 0 < config.stepsPerTick)
    (machine : Machine) (result : RunResult) :
    Host.Returns machine config result ↔
      ∃ u, RunsTo config.stepLimit (Runner.progress { machine } "") result.halt u ∧
        u.result result.halt = result := by
  have hready : Host.Ready config.stepLimit { runner := { machine, config } } := ⟨rfl, hpos, rfl⟩
  have hseen (ticks : Nat) (halt : Halt) (final : Host)
      (hrun : runTicks Host.tick { runner := { machine, config } } ticks =
        .ok (some halt, final)) : Host.outcome halt final = final.progress.result halt := by
    rw [← Host.run_eq_runTicks] at hrun
    have hprinted : final.progress.written = final.printed := by
      change final.printed ++ final.runner.machine.output.contents = final.printed
      rw [Host.output_run hrun]
      exact String.append_empty
    unfold Progress.result
    rw [hprinted]
    rfl
  have hiff := ended?_runTicks_iff (Host.tickOf_tick config.stepLimit) hready hseen result
  unfold Host.Returns Host.result?
  rw [Host.start_eq hpos]
  simp only [Except.bind, Host.run_eq_runTicks]
  exact hiff

theorem Runner.returns_iff (config : RunConfig) (hpos : 0 < config.stepsPerTick)
    (hstop : config.stopAtBreakpoints = false) (machine : Machine) (result : RunResult) :
    Runner.Returns machine config result ↔
      ∃ u, RunsTo config.stepLimit (Runner.progress { machine } "") result.halt u ∧
        u.result result.halt = result := by
  have hready : Runner.Ready config.stepLimit { machine, config } := ⟨rfl, hstop, rfl⟩
  have hseen (rounds : Nat) (halt : Halt) (final : Runner)
      (_ : runTicks (fun r => Runner.returned (r.runFor (Decimal.wordLimit - 1)))
        { machine, config } rounds = .ok (some halt, final)) : Runner.outcome halt final = (final.progress "").result halt := by
    unfold Runner.outcome Progress.result Runner.progress
    rw [String.empty_append]
    rfl
  have hiff := ended?_runTicks_iff (Runner.tickOf_runFor config.stepLimit) hready hseen result
  unfold Runner.Returns Runner.result?
  rw [Runner.start_eq hpos]
  simp only [Except.bind, Runner.run_eq_runTicks]
  exact hiff

theorem Host.exists_run {config : RunConfig} (hpos : 0 < config.stepsPerTick) (machine : Machine)
    (ticks : Nat) :
    ∃ halt? final, (Host.start machine config).bind (·.run ticks) = .ok (halt?, final) := by
  have hready : Host.Ready config.stepLimit { runner := { machine, config } } := ⟨rfl, hpos, rfl⟩
  obtain ⟨halt?, final, hrun, -⟩ :=
    runTicks_sound (Host.tickOf_tick config.stepLimit) hready ticks
  refine ⟨halt?, final, ?_⟩
  rw [Host.start_eq hpos, ← hrun]
  exact Host.run_eq_runTicks _ ticks

/-- Under one limit on its steps a program has one result, whatever the size of the ticks, the stops
at breakpoints and the tracing: that of one run that stops at no breakpoint. It is returned under
all these configurations or under none, and no tick of any of them fails. -/
theorem Host.result_independent_of_schedule (program : Program) (text : String)
    (c c' : RunConfig) (hc : 0 < c.stepsPerTick) (hc' : 0 < c'.stepsPerTick)
    (hlimit : c.stepLimit = c'.stepLimit) :
    (∀ result, Host.Returns (.fresh program text) c result ↔
      Host.Returns (.fresh program text) c' result) ∧
    (∀ result, Host.Returns (.fresh program text) c result ↔
      Runner.Returns (.fresh program text) { c' with stopAtBreakpoints := false } result) ∧
    (∀ result, Host.Returns (.fresh program text) c result →
      (result.halt = .finished ∨ result.halt = .stepLimit) ∧
        ∀ other, Host.Returns (.fresh program text) c other → other = result) ∧
    ∀ ticks, ∃ halt? final,
      (Host.start (.fresh program text) c).bind (·.run ticks) = .ok (halt?, final) := by
  refine ⟨fun result => ?_, fun result => ?_, fun result h => ⟨?_, fun other hother => ?_⟩,
    Host.exists_run hc _⟩
  · rw [Host.returns_iff c hc, Host.returns_iff c' hc', hlimit]
  · rw [Host.returns_iff c hc, Runner.returns_iff { c' with stopAtBreakpoints := false } hc' rfl,
      hlimit]
  · obtain ⟨u, hruns, -⟩ := (Host.returns_iff c hc _ result).mp h
    exact hruns.halt_eq
  · obtain ⟨u, hruns, hu⟩ := (Host.returns_iff c hc _ result).mp h
    obtain ⟨v, hother, hv⟩ := (Host.returns_iff c hc _ other).mp hother
    obtain ⟨hhalt, rfl⟩ := hruns.unique hother
    rw [← hu, ← hv, hhalt]

/-- Counts upwards without an end, with a breakpoint at each number. -/
def counting : Program :=
  .ofInstructions #[.tag "up", ⟨.add, some (.literal 1), false, none⟩,
    ⟨.putNumber, none, true, none⟩, ⟨.jump, some (.tag "up" 0), false, none⟩]

theorem counting_returns :
    Host.Returns (.fresh counting "") ⟨true, true, some 7, 5⟩
      ⟨.stepLimit, 7, ⟨2, [], 3⟩, .ofString "", "12"⟩ ∧
    Host.Returns (.fresh counting "") ⟨false, false, some 7, 9⟩
      ⟨.stepLimit, 7, ⟨2, [], 3⟩, .ofString "", "12"⟩ ∧
    Runner.Returns (.fresh counting "") ⟨false, false, some 7, 9⟩
      ⟨.stepLimit, 7, ⟨2, [], 3⟩, .ofString "", "12"⟩ := by
  have h : Host.Returns (.fresh counting "") ⟨true, true, some 7, 5⟩
      ⟨.stepLimit, 7, ⟨2, [], 3⟩, .ofString "", "12"⟩ := ⟨3, by decide +kernel⟩
  obtain ⟨hhost, hrunner, -⟩ := Host.result_independent_of_schedule counting ""
    ⟨true, true, some 7, 5⟩ ⟨false, false, some 7, 9⟩ (by decide) (by decide) rfl
  exact ⟨h, (hhost _).mp h, (hrunner _).mp h⟩

end AccumulatorMachine
