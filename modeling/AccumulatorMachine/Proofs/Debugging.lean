import AccumulatorMachine.Debugger.Session
import AccumulatorMachine.Proofs.Operations
import Mathlib.Order.Bounds.Defs

/-!
A debugging session drives the machine and does nothing else to it. At each prompt the machine is
where a fresh one is after a number of steps that the commands since the start or the last reset add
up to, and what was printed as output is what these steps write.
-/
namespace AccumulatorMachine

theorem any_getLast?_cons {α : Type} {q : α → Bool} {item : α} (h : q item = false)
    (rest : List α) : (item :: rest).getLast?.any q = rest.getLast?.any q := by
  rw [List.getLast?_cons]
  cases rest.getLast? with
  | none => exact h
  | some last => rfl

theorem takeThrough_never {α : Type} (items : List α) :
    takeThrough (fun _ => false) items = items := by
  induction items with
  | nil => rfl
  | cons item rest ih => rw [takeThrough, if_neg Bool.false_ne_true, ih]

namespace Machine

/-- A run can end after `made` steps: as many were asked for, the program is at its end, or the last
of them stops the run. -/
def CanEnd (m : Machine) (stops : Step → Bool) (count made : Nat) : Prop :=
  made = count ∨ (m.steps made).2.atEnd = true ∨ (m.steps made).1.getLast?.any stops = true

variable {m next : Machine} {done : Step} {stops : Step → Bool}

theorem canEnd_succ_iff (h : m.step = (.ok done, next)) (hgo : stops done = false)
    (count made : Nat) : m.CanEnd stops (count + 1) (made + 1) ↔ next.CanEnd stops count made := by
  unfold CanEnd
  rw [steps_of_step h, Nat.add_right_cancel_iff, any_getLast?_cons hgo]

theorem not_canEnd_zero (h : m.atEnd = false) (count : Nat) : ¬m.CanEnd stops (count + 1) 0 := by
  rintro (hzero | hend | hlast)
  · cases hzero
  · cases h.symm.trans hend
  · cases hlast

/-- A run that ends neither at the end nor behind a step that stops it has made all its steps. -/
theorem CanEnd.eq_count {count made : Nat} (h : m.CanEnd stops count made)
    (hend : (m.steps made).2.atEnd = false) (hlast : (m.steps made).1.getLast?.any stops = false) :
    made = count := by
  rcases h with hall | hno | hno
  · exact hall
  · cases hend.symm.trans hno
  · cases hlast.symm.trans hno

/-- The steps through the first one that stops the run are as few as can be. -/
theorem isLeast_takeThrough (m : Machine) (stops : Step → Bool) (count : Nat) :
    IsLeast {made | m.CanEnd stops count made} (takeThrough stops (m.steps count).1).length := by
  induction count generalizing m with
  | zero => exact ⟨Or.inl rfl, fun made _ => Nat.zero_le made⟩
  | succ count ih =>
    cases hend : m.atEnd with
    | true =>
      rw [steps_of_atEnd hend]
      exact ⟨Or.inr (Or.inl hend), fun made _ => Nat.zero_le made⟩
    | false =>
      obtain ⟨done, next, h⟩ := exists_step hend
      rw [steps_of_step h, takeThrough]
      cases hstop : stops done with
      | true =>
        rw [if_pos rfl]
        constructor
        · have hlast : (m.steps 1).1.getLast?.any stops = true := by
            rw [steps_of_step h]
            exact hstop
          exact Or.inr (Or.inr hlast)
        · intro made hmade
          cases made with
          | zero => exact absurd hmade (not_canEnd_zero hend count)
          | succ made => exact Nat.succ_le_succ (Nat.zero_le made)
      | false =>
        obtain ⟨hmem, hleast⟩ := ih next
        rw [if_neg Bool.false_ne_true, List.length_cons]
        constructor
        · exact (canEnd_succ_iff h hstop _ _).mpr hmem
        · intro made hmade
          cases made with
          | zero => exact absurd hmade (not_canEnd_zero hend count)
          | succ made => exact Nat.succ_le_succ (hleast ((canEnd_succ_iff h hstop _ _).mp hmade))

/-- Running from `m` on makes `made` steps, which write `written`: as many as asked for, unless the
end or a step that stops the run comes before. -/
structure Makes (m : Machine) (stops : Step → Bool) (count made : Nat) (written : String) :
    Prop where
  isLeast : IsLeast {made | m.CanEnd stops count made} made
  contents : (m.steps made).2.output.contents = m.output.contents ++ written

end Machine

namespace Runner

variable {r t : Runner} {halt? : Option Halt}

theorem stopsBehind_of_plain (hconfig : r.config = {}) : r.stopsBehind = Step.breakpoint := by
  funext done
  unfold stopsBehind
  rw [hconfig, Bool.and_true]

theorem course_of_plain (hpaused : r.paused = false) (hconfig : r.config = {}) (budget : Nat) :
    r.course budget = takeThrough Step.breakpoint (r.machine.steps budget).1 := by
  unfold course allowance
  rw [hpaused, if_neg Bool.false_ne_true, stopsBehind_of_plain hconfig, hconfig]

/-- Without a limit on its steps a bounded run says why it ended: by a breakpoint, by the end of the
program, or by its budget, in this order. -/
theorem halt_advance {budget : Nat} (hpaused : r.paused = false)
    (hlimit : r.config.stepLimit = none) (h : r.advance budget = (.ok halt?, t)) :
    halt? = if (r.course budget).getLast?.any r.stopsBehind then some (.breakpoint t.state)
      else if t.isFinished then some .finished else none := by
  obtain ⟨t', hrun, hran⟩ := ran_advance hpaused budget
  obtain ⟨rfl, rfl⟩ := okPair_inj (h.symm.trans hrun)
  have hfree : ¬r.LimitedAt budget (r.course budget).length := by
    rintro ⟨-, hreached⟩
    rw [hlimit] at hreached
    cases hreached
  unfold haltAfter
  simp only [breaksAt_length_iff hran.machine, hran.machine, if_neg hfree]
  rfl

end Runner

namespace Debugger

/-- The lines on the breakpoints among steps. -/
def breakpointLines (executed : List Step) : String :=
  String.join ((executed.filter Step.breakpoint).map fun done => s!"Breakpoint at {done.index}\n")

/-- The line on what was written, if anything was. -/
def outputLine (written : String) : String :=
  if written.isEmpty then "" else "Output: " ++ written ++ "\n"

/-- The last line of the answer to running on from `m`. -/
structure Closes (m : Machine) (maxSteps made : Nat) (closing : String) : Prop where
  breakpoint : (m.steps made).1.getLast?.any Step.breakpoint = true →
    closing = "Breakpoint: " ++ (m.steps made).2.state.text ++ "\n"
  finished : (m.steps made).1.getLast?.any Step.breakpoint = false →
    (m.steps made).2.atEnd = true → closing = "Program finished\n"
  stopped : closing = s!"Stopped after {maxSteps} steps\n" ↔ made = maxSteps ∧
    (m.steps made).1.getLast?.any Step.breakpoint = false ∧ (m.steps made).2.atEnd = false

/-- How far a session has come since its start or the last reset. -/
structure Tally where
  steps : Nat := 0
  /-- All that was printed behind `Output: `. -/
  printed : String := ""

/-- The machine that a fresh one has become. -/
def Tally.reached (t : Tally) (fresh : Machine) : Machine :=
  (fresh.steps t.steps).2

/-- What a line other than a request to quit is answered with, and how far the session is then. -/
inductive Answered (fresh : Machine) (maxSteps : Nat) (line : String) (t : Tally) :
    String → Tally → Prop
  | step {count made : Nat} {written : String}
    (hline : DebugCommand.ofLine line = .ok (.step count))
    (hmakes : (t.reached fresh).Makes (fun _ => false) count made written) :
    Answered fresh maxSteps line t
      (breakpointLines ((t.reached fresh).steps made).1 ++ outputLine written ++
        statusLine { machine := ((t.reached fresh).steps made).2 })
      ⟨t.steps + made, t.printed ++ written⟩
  | proceed {made : Nat} {written closing : String}
    (hline : DebugCommand.ofLine line = .ok .proceed)
    (hmakes : (t.reached fresh).Makes Step.breakpoint maxSteps made written)
    (hcloses : Closes (t.reached fresh) maxSteps made closing) :
    Answered fresh maxSteps line t (outputLine written ++ closing)
      ⟨t.steps + made, t.printed ++ written⟩
  | reset (hline : DebugCommand.ofLine line = .ok .reset) :
    Answered fresh maxSteps line t "Program reset\n" {}
  | status (hline : DebugCommand.ofLine line = .ok .status) :
    Answered fresh maxSteps line t (statusLine { machine := t.reached fresh }) t
  | list (hline : DebugCommand.ofLine line = .ok .list) :
    Answered fresh maxSteps line t
      ((Listing.ofProgram fresh.program).marked (t.reached fresh).state.pc) t
  | help (hline : DebugCommand.ofLine line = .ok .help) :
    Answered fresh maxSteps line t helpText t
  | rejected {error : DebugCommandError} (hline : DebugCommand.ofLine line = .error error) :
    Answered fresh maxSteps line t (error.message ++ "\n") t

/-- The debugger at a prompt. A fresh machine makes as many steps as the tally has, and then is the
debugger's, of whose output all is printed. -/
structure AtPrompt (fresh : Machine) (limit : Nat) (d : Debugger) (t : Tally) : Prop where
  length : (fresh.steps t.steps).1.length = t.steps
  machine : d.runner.machine = (t.reached fresh).drained
  printed : (t.reached fresh).output.contents = t.printed
  config : d.runner.config = {}
  listing : d.listing = .ofProgram fresh.program
  maxSteps : d.maxSteps = limit

/-- A session that goes on from a prompt. Each line is answered by the debugger as it should be,
until there are no more lines, or one asks to quit, or one is no text. -/
inductive Converses (fresh : Machine) (limit : Nat) :
    Debugger → Tally → List (List UInt8) → Transcript → Prop
  | ends {d : Debugger} {t : Tally} (hprompt : AtPrompt fresh limit d t) :
    Converses fresh limit d t [] ⟨prompt, none⟩
  | quits {d : Debugger} {t : Tally} {raw : List UInt8} {later : List (List UInt8)} {line : String}
    (hprompt : AtPrompt fresh limit d t) (hraw : lineText raw = .ok line)
    (hline : DebugCommand.ofLine line = .ok .quit) :
    Converses fresh limit d t (raw :: later) ⟨prompt, none⟩
  | breaksOff {d : Debugger} {t : Tally} {raw : List UInt8} {later : List (List UInt8)}
    {fault : Utf8.Fault} (hprompt : AtPrompt fresh limit d t) (hraw : lineText raw = .error fault) :
    Converses fresh limit d t (raw :: later) ⟨prompt, some (.text fault)⟩
  | answers {d next : Debugger} {t t' : Tally} {raw : List UInt8} {later : List (List UInt8)}
    {line text : String} {rest : Transcript}
    (hprompt : AtPrompt fresh limit d t) (hraw : lineText raw = .ok line)
    (hanswer : d.answer line = .more text next) (hanswered : Answered fresh limit line t text t')
    (hrest : Converses fresh limit next t' later rest) :
    Converses fresh limit d t (raw :: later) ⟨prompt ++ text ++ rest.text, rest.failure⟩

theorem stepMany_eq (r : Runner) (written : String) (count : Nat) :
    ∃ after, stepMany r written count =
        .ok (written ++ breakpointLines (r.machine.steps count).1, after) ∧
      r.Ran (r.machine.steps count).1 none after := by
  -- The lines written so far go along, so they are as general as the runner.
  induction count generalizing r written with
  | zero =>
    refine ⟨r, ?_, .refl r (by simp)⟩
    rw [stepMany]
    exact congrArg (fun text => Except.ok (text, r)) String.append_empty.symm
  | succ count ih =>
    rw [stepMany]
    cases hend : r.isFinished with
    | true =>
      have hnone : r.machine.steps (count + 1) = ([], r.machine) := Machine.steps_of_atEnd hend _
      rw [if_pos rfl, hnone]
      refine ⟨r, ?_, .refl r (by simp)⟩
      exact congrArg (fun text => Except.ok (text, r)) String.append_empty.symm
    | false =>
      obtain ⟨done, next, hstep⟩ := Runner.exists_step hend
      obtain ⟨hmachine, -⟩ := Runner.step_eq_ok hstep
      rw [if_neg Bool.false_ne_true, hstep, Machine.steps_of_step hmachine]
      dsimp only
      obtain ⟨after, hafter, hran⟩ := ih next
        (if done.breakpoint then written ++ s!"Breakpoint at {done.index}\n" else written)
      refine ⟨after, ?_, hran.cons hstep⟩
      rw [hafter]
      unfold breakpointLines
      cases hbreak : done.breakpoint with
      | true => simp [hbreak, String.append_assoc]
      | false => simp [hbreak]

theorem statusLine_congr {r s : Runner} (hstate : r.state = s.state)
    (hend : r.isFinished = s.isFinished) : statusLine r = statusLine s := by
  unfold statusLine
  rw [hstate, hend]

/-- Only a run that used up its steps is said to have done so. -/
theorem haltLine_ne_stopped {limit : Nat} {halt : Halt}
    (h : halt = .finished ∨ ∃ state, halt = .breakpoint state) :
    haltLine limit (some halt) ≠ s!"Stopped after {limit} steps\n" := by
  intro heq
  have hletter : (haltLine limit (some halt)).toList.head? = some 'S' := by
    rw [heq, String.toList_append, String.toList_append]
    rfl
  rcases h with rfl | ⟨state, rfl⟩
  · have hother : "Program finished\n".toList.head? = some 'P' := by decide
    exact absurd (hother.symm.trans hletter) (by decide)
  · change ("Breakpoint: " ++ state.text ++ "\n").toList.head? = some 'S' at hletter
    rw [String.toList_append, String.toList_append] at hletter
    cases hletter

theorem closes_haltLine {m : Machine} {limit made : Nat} {halt? : Option Halt}
    (hmade : m.CanEnd Step.breakpoint limit made)
    (hhalt : halt? = if (m.steps made).1.getLast?.any Step.breakpoint then
        some (.breakpoint (m.steps made).2.state)
      else if (m.steps made).2.atEnd then some .finished else none) :
    Closes m limit made (haltLine limit halt?) := by
  cases hlast : (m.steps made).1.getLast?.any Step.breakpoint with
  | true =>
    rw [hlast, if_pos rfl] at hhalt
    subst hhalt
    have hne : haltLine limit (some (.breakpoint (m.steps made).2.state)) ≠ _ :=
      haltLine_ne_stopped (Or.inr ⟨_, rfl⟩)
    exact ⟨fun _ => rfl, by simp [hlast], fun heq => absurd heq hne, by simp [hlast]⟩
  | false =>
    rw [hlast, if_neg Bool.false_ne_true] at hhalt
    cases hend : (m.steps made).2.atEnd with
    | true =>
      rw [hend, if_pos rfl] at hhalt
      subst hhalt
      have hne : haltLine limit (some .finished) ≠ _ := haltLine_ne_stopped (Or.inl rfl)
      exact ⟨by simp [hlast], fun _ _ => rfl, fun heq => absurd heq hne, by simp [hend]⟩
    | false =>
      rw [hend, if_neg Bool.false_ne_true] at hhalt
      subst hhalt
      have hall := hmade.eq_count hend hlast
      exact ⟨by simp [hlast], by simp [hend], fun _ => ⟨hall, hlast, hend⟩, fun _ => rfl⟩

section Prompts

variable {fresh : Machine} {limit : Nat} {d next : Debugger} {t : Tally} {line text : String}

theorem answer_of_perform {command : DebugCommand} (hline : DebugCommand.ofLine line = .ok command)
    (hquit : command ≠ .quit) (hperform : d.perform command = .ok (text, next)) :
    d.answer line = .more text next := by
  unfold answer
  rw [hline]
  cases command with
  | quit => exact absurd rfl hquit
  | _ =>
    dsimp only
    rw [hperform]

theorem AtPrompt.state_eq (h : AtPrompt fresh limit d t) :
    d.runner.state = (t.reached fresh).state := by
  unfold Runner.state
  rw [h.machine]
  rfl

theorem AtPrompt.isFinished_eq (h : AtPrompt fresh limit d t) :
    d.runner.isFinished = (t.reached fresh).atEnd := by
  unfold Runner.isFinished
  rw [h.machine]
  rfl

/-- A run from a prompt on, after which the output is taken away, leads to a prompt. -/
theorem AtPrompt.run (h : AtPrompt fresh limit d t) {r after : Runner} {stops : Step → Bool}
    {count : Nat} {halt? : Option Halt}
    (hran : r.Ran (takeThrough stops (r.machine.steps count).1) halt? after)
    (hmachine : r.machine = d.runner.machine) (hconfig : r.config = d.runner.config) :
    ∃ made, (t.reached fresh).Makes stops count made after.machine.output.contents ∧
      takeThrough stops (r.machine.steps count).1 = ((t.reached fresh).steps made).1 ∧
      after.state = ((t.reached fresh).steps made).2.state ∧
      after.isFinished = ((t.reached fresh).steps made).2.atEnd ∧
      AtPrompt fresh limit { d with runner := (drain after).2 }
        ⟨t.steps + made, t.printed ++ after.machine.output.contents⟩ := by
  have hr : r.machine = (t.reached fresh).drained := hmachine.trans h.machine
  have hsteps := hran.machine
  rw [hr] at hsteps ⊢
  rw [((t.reached fresh).steps_drained count).1] at hsteps ⊢
  have hleast := (t.reached fresh).isLeast_takeThrough stops count
  generalize takeThrough stops ((t.reached fresh).steps count).1 = executed at hsteps hleast ⊢
  obtain ⟨hlist, hsame, hwritten⟩ := (t.reached fresh).steps_drained executed.length
  rw [hsteps] at hlist hsame hwritten
  have hadd := fresh.steps_add t.steps executed.length
  have hreached : (fresh.steps (t.steps + executed.length)).2 =
      ((t.reached fresh).steps executed.length).2 := by
    rw [hadd]
    rfl
  obtain ⟨hstate, hprogram⟩ := Machine.eq_of_drained_eq hsame
  have hend : after.isFinished = ((t.reached fresh).steps executed.length).2.atEnd := by
    unfold Runner.isFinished Machine.atEnd
    rw [hstate, hprogram]
  refine ⟨executed.length, ⟨hleast, hwritten⟩, hlist, hstate, hend, ?_, ?_, ?_, ?_, h.listing,
    h.maxSteps⟩
  · show (fresh.steps (t.steps + executed.length)).1.length = t.steps + executed.length
    have hlater : ((fresh.steps t.steps).2.steps executed.length).1 = executed := hlist.symm
    rw [hadd, List.length_append, h.length, hlater]
  · show after.machine.drained = (fresh.steps (t.steps + executed.length)).2.drained
    rw [hreached, hsame]
  · show (fresh.steps (t.steps + executed.length)).2.output.contents =
      t.printed ++ after.machine.output.contents
    rw [hreached, hwritten, h.printed]
  · exact (hran.config.trans hconfig).trans h.config

theorem AtPrompt.step (h : AtPrompt fresh limit d t) {count : Nat}
    (hline : DebugCommand.ofLine line = .ok (.step count)) :
    ∃ text next t', d.answer line = .more text next ∧ Answered fresh limit line t text t' ∧
      AtPrompt fresh limit next t' := by
  obtain ⟨after, hafter, hran⟩ := stepMany_eq d.runner "" count
  rw [← takeThrough_never (d.runner.machine.steps count).1] at hran
  obtain ⟨made, hmakes, hlist, hstate, hend, hprompt⟩ := h.run hran rfl rfl
  rw [takeThrough_never] at hlist
  have hstatus : statusLine (drain after).2 =
      statusLine { machine := ((t.reached fresh).steps made).2 } := statusLine_congr hstate hend
  refine ⟨_, _, _, answer_of_perform hline (by simp) ?_, .step hline hmakes, hprompt⟩
  rw [perform, hafter, hlist]
  dsimp only
  rw [hstatus, String.empty_append]
  rfl

theorem AtPrompt.proceed (h : AtPrompt fresh limit d t)
    (hline : DebugCommand.ofLine line = .ok .proceed) :
    ∃ text next t', d.answer line = .more text next ∧ Answered fresh limit line t text t' ∧
      AtPrompt fresh limit next t' := by
  have hconfig : d.runner.resume.config = {} := h.config
  have hcourse := Runner.course_of_plain rfl hconfig d.maxSteps
  have hstops := Runner.stopsBehind_of_plain hconfig
  obtain ⟨halt?, after, hrun, hran⟩ := d.runner.resume.ran_runFor d.maxSteps
  have hadvance : d.runner.resume.advance d.maxSteps = (.ok halt?, after) := hrun
  have hlimit : d.runner.resume.config.stepLimit = none := congrArg RunConfig.stepLimit hconfig
  have hhalt := Runner.halt_advance rfl hlimit hadvance
  rw [hcourse] at hran hhalt
  obtain ⟨made, hmakes, hlist, hstate, hend, hprompt⟩ := h.run hran rfl rfl
  rw [hlist, hstops, hstate, hend] at hhalt
  rw [h.maxSteps] at hmakes
  have hcloses := closes_haltLine hmakes.isLeast.1 hhalt
  refine ⟨_, _, _, answer_of_perform hline (by simp) ?_, .proceed hline hmakes hcloses, hprompt⟩
  rw [perform, hrun, h.maxSteps]
  rfl

/-- Going back to the start leads to a fresh machine. -/
theorem AtPrompt.rewind (h : AtPrompt fresh limit d t) (hstate : fresh.state = {})
    (hinput : fresh.input.rewind = fresh.input) (houtput : fresh.output = {}) :
    AtPrompt fresh limit { d with runner := d.runner.reset.rewindInput } {} := by
  have hkept (m : Machine) (done : Step) (next : Machine)
      (hm : m.program = fresh.program ∧ m.input.rewind = fresh.input)
      (hstep : m.step = (.ok done, next)) :
      True ∧ next.program = fresh.program ∧ next.input.rewind = fresh.input :=
    ⟨trivial, (Machine.program_step hstep).trans hm.1, (Machine.rewind_step hstep).trans hm.2⟩
  obtain ⟨hprogram, hrewound⟩ := (Machine.forall_steps hkept ⟨rfl, hinput⟩ t.steps).2
  refine ⟨rfl, ?_, ?_, h.config, h.listing, h.maxSteps⟩
  · have hmachine : d.runner.reset.rewindInput.machine =
        ⟨(t.reached fresh).program, {}, (t.reached fresh).input.rewind, {}⟩ := by
      unfold Runner.reset Runner.rewindInput Machine.reset
      rw [h.machine]
      rfl
    have hfresh : fresh.drained = ⟨fresh.program, {}, fresh.input, {}⟩ := by
      unfold Machine.drained
      rw [hstate]
    exact hmachine.trans (by rw [Tally.reached, hprogram, hrewound]; exact hfresh.symm)
  · show fresh.output.contents = ""
    rw [houtput]
    rfl

/-- What one line does. -/
theorem AtPrompt.answer {program : Program} {input : String}
    (h : AtPrompt (.fresh program input) limit d t) (line : String) :
    DebugCommand.ofLine line = .ok .quit ∧ d.answer line = .finish ∨
      ∃ text next t', d.answer line = .more text next ∧
        Answered (.fresh program input) limit line t text t' ∧
        AtPrompt (.fresh program input) limit next t' := by
  cases hline : DebugCommand.ofLine line with
  | error error =>
    refine Or.inr ⟨_, d, t, ?_, .rejected hline, h⟩
    unfold Debugger.answer
    rw [hline]
  | ok command =>
    cases command with
    | quit =>
      refine Or.inl ⟨rfl, ?_⟩
      unfold Debugger.answer
      rw [hline]
    | step count => exact Or.inr (h.step hline)
    | proceed => exact Or.inr (h.proceed hline)
    | reset =>
      have hfresh := h.rewind rfl rfl rfl
      exact Or.inr ⟨_, _, {}, answer_of_perform hline (by simp) rfl, .reset hline, hfresh⟩
    | status =>
      refine Or.inr ⟨_, d, t, answer_of_perform hline (by simp) ?_, .status hline, h⟩
      have hstatus : statusLine d.runner =
          statusLine { machine := t.reached (.fresh program input) } :=
        statusLine_congr h.state_eq h.isFinished_eq
      rw [perform, hstatus]
    | list =>
      refine Or.inr ⟨_, d, t, answer_of_perform hline (by simp) ?_, .list hline, h⟩
      rw [perform, h.listing, h.state_eq]
    | help => exact Or.inr ⟨_, d, t, answer_of_perform hline (by simp) rfl, .help hline, h⟩

end Prompts

theorem converse_of_answer {d next : Debugger} {raw : List UInt8} {line text : String}
    (hraw : lineText raw = .ok line) (hanswer : d.answer line = .more text next)
    (written : String) (later : List (List UInt8)) :
    d.converse written (raw :: later) = next.converse (written ++ prompt ++ text) later := by
  have hbytes : d.answerBytes raw = .more text next := by
    unfold answerBytes
    rw [hraw]
    exact hanswer
  rw [converse, hbytes]

section Sessions

variable {program : Program} {input : String} {limit : Nat} {d : Debugger} {t : Tally}

theorem exists_converses (h : AtPrompt (.fresh program input) limit d t)
    (raws : List (List UInt8)) : ∃ transcript, Converses (.fresh program input) limit d t raws transcript ∧
      ∀ written, d.converse written raws = ⟨written ++ transcript.text, transcript.failure⟩ := by
  -- A line leads from one prompt to the next, so the debugger and the tally change along the lines.
  induction raws generalizing d t with
  | nil => exact ⟨⟨prompt, none⟩, .ends h, fun written => rfl⟩
  | cons raw later ih =>
    cases hraw : lineText raw with
    | error fault =>
      refine ⟨⟨prompt, some (.text fault)⟩, .breaksOff h hraw, fun written => ?_⟩
      rw [converse, answerBytes, hraw]
    | ok line =>
      rcases h.answer line with ⟨hline, hfinish⟩ | ⟨text, next, t', hanswer, hanswered, hnext⟩
      · refine ⟨⟨prompt, none⟩, .quits h hraw hline, fun written => ?_⟩
        rw [converse, answerBytes, hraw]
        dsimp only
        rw [hfinish]
      · obtain ⟨rest, hrest, hwritten⟩ := ih hnext
        refine ⟨_, .answers h hraw hanswer hanswered hrest, fun written => ?_⟩
        rw [converse_of_answer hraw hanswer, hwritten, String.append_assoc, String.append_assoc,
          String.append_assoc]

theorem Converses.failure_ne_run {fresh : Machine} {raws : List (List UInt8)}
    {transcript : Transcript} (h : Converses fresh limit d t raws transcript) (error : RunError) :
    transcript.failure ≠ some (.run error) := by
  induction h with
  | ends _ => simp
  | quits _ _ _ => simp
  | breaksOff _ _ => simp
  | answers _ _ _ _ _ ih => exact ih

theorem Converses.failure_eq_none {fresh : Machine} {raws : List (List UInt8)}
    {transcript : Transcript} (h : Converses fresh limit d t raws transcript)
    (hraws : ∀ raw ∈ raws, ∃ line, lineText raw = .ok line) : transcript.failure = none := by
  induction h with
  | ends _ => rfl
  | quits _ _ _ => rfl
  | breaksOff _ hraw =>
    obtain ⟨line, hline⟩ := hraws _ List.mem_cons_self
    cases hline.symm.trans hraw
  | answers _ _ _ _ _ ih => exact ih fun raw hraw => hraws raw (List.mem_cons_of_mem _ hraw)

theorem atPrompt_start (program : Program) (input : String) (maxSteps : Nat) :
    AtPrompt (.fresh program input) maxSteps (start program (.ofString input) maxSteps) {} :=
  ⟨rfl, rfl, rfl, rfl, rfl, rfl⟩

/-- A session on a program and the text of its input keeps in step with a fresh machine. It never
breaks off because of the machine, and not at all if its lines are texts. -/
theorem session_follows_machine (program : Program) (input : String) (maxSteps : Nat)
    (bytes : List UInt8) :
    ∃ transcript, Converses (.fresh program input) maxSteps
        (start program (.ofString input) maxSteps) {} (Utf8.lines bytes) transcript ∧
      (start program (.ofString input) maxSteps).session bytes =
        ⟨(start program (.ofString input) maxSteps).banner ++ transcript.text, transcript.failure⟩ ∧
      (∀ error, transcript.failure ≠ some (.run error)) ∧
      ((∀ raw ∈ Utf8.lines bytes, ∃ line, lineText raw = .ok line) →
        transcript.failure = none) := by
  obtain ⟨transcript, hconverses, hwritten⟩ :=
    exists_converses (atPrompt_start program input maxSteps) (Utf8.lines bytes)
  exact ⟨transcript, hconverses, hwritten _, hconverses.failure_ne_run, hconverses.failure_eq_none⟩

/-- Writes a character of its input and the one after it, and has a breakpoint at each. -/
def printing : Program :=
  .ofInstructions #[⟨.assign, some (.register .input), false, none⟩, ⟨.putChar, none, true, none⟩,
    ⟨.add, some (.literal 1), false, none⟩, ⟨.putChar, none, true, none⟩]

/-- The lines `s 2`, `c`, `x`, `r`, `c` and `s 9`. -/
def printingLines : List UInt8 :=
  [115, 32, 50, 10, 99, 10, 120, 10, 114, 10, 99, 10, 115, 32, 57, 10]

/-- The prompts and answers of the session. Running on stops at the breakpoint of the last
instruction rather than at the end. -/
def printingText : String :=
  "(alpha) Breakpoint at 1\nOutput: a\nA: 97 S: [] Index: 2\n" ++
  "(alpha) Output: b\nBreakpoint: A: 98 S: [] Index: 4\n" ++
  "(alpha) Unknown command 'x', try 'help'\n(alpha) Program reset\n" ++
  "(alpha) Output: a\nBreakpoint: A: 97 S: [] Index: 2\n" ++
  "(alpha) Breakpoint at 3\nOutput: b\nA: 98 S: [] Index: 4 (finished)\n(alpha) "

theorem session_follows_printing :
    (∀ raw ∈ Utf8.lines printingLines, ∃ line, lineText raw = .ok line) ∧
    Converses (.fresh printing "a") 3 (start printing (.ofString "a") 3) {}
      (Utf8.lines printingLines) ⟨printingText, none⟩ := by
  have htexts : (Utf8.lines printingLines).all (fun raw => (lineText raw).isOk) = true := by
    decide +kernel
  have hlines : ∀ raw ∈ Utf8.lines printingLines, ∃ line, lineText raw = .ok line := by
    intro raw hraw
    have hok := List.all_eq_true.mp htexts raw hraw
    cases hline : lineText raw with
    | ok line => exact ⟨line, rfl⟩
    | error fault =>
      rw [hline] at hok
      cases hok
  refine ⟨hlines, ?_⟩
  obtain ⟨⟨text, failure⟩, hconverses, hsession, -, hnone⟩ :=
    session_follows_machine printing "a" 3 printingLines
  obtain rfl : failure = none := hnone hlines
  have hwhole : (start printing (.ofString "a") 3).session printingLines =
      ⟨(start printing (.ofString "a") 3).banner ++ printingText, none⟩ := by
    decide +kernel
  have htext := congrArg Transcript.text (hsession.symm.trans hwhole)
  rw [String.append_right_inj] at htext
  rw [← htext]
  exact hconverses

end Sessions

end Debugger

end AccumulatorMachine
