import AccumulatorMachine.Proofs.Numeral
import AccumulatorMachine.Proofs.StepLimits

/-!
Tracing a run. A traced run does what the run without tracing does, and its log without the
announcements of instructions is the log of that run. The announcements tell of all executed
instructions, in order and with the values just before them; between one and the next the log tells
whether the instruction had a fault and whether it has a breakpoint.
-/
namespace AccumulatorMachine

/-- The note announces an instruction that is about to be executed. -/
def RunNote.isExecuting : RunNote → Bool
  | .executing .. => true
  | .fault .. | .breakpoint .. | .limitReached _ | .stopped .. => false

/-- All other notes on a step are made whether it is traced or not. -/
theorem Step.filter_notes (done : Step) (trace : Bool) :
    (done.notes trace).filter (fun note => !note.isExecuting) = done.notes false := by
  have hkept : (done.notes false).filter (fun note => !note.isExecuting) = done.notes false := by
    apply List.filter_eq_self.mpr
    intro note hnote
    simp only [Step.notes, Bool.false_eq_true, if_false, List.nil_append, List.mem_append,
      List.mem_map] at hnote
    rcases hnote with ⟨fault, -, rfl⟩ | ⟨state, -, rfl⟩
    · rfl
    · rfl
  cases trace with
  | false => exact hkept
  | true => exact hkept

namespace Runner

/-- The runner as it would be without tracing. -/
def untraced (r : Runner) : Runner :=
  { r with
    config := { r.config with trace := false }
    noted := r.noted.filter fun note => !note.isExecuting }

theorem step_untraced (r : Runner) :
    r.untraced.step = (r.step.1, r.step.2.untraced) := by
  unfold Runner.step
  have hmachine : r.untraced.machine = r.machine := rfl
  rw [hmachine]
  obtain ⟨result, machine⟩ := r.machine.step
  cases result with
  | error fault => rfl
  | ok done =>
    have hnoted : ((done.notes r.config.trace).reverse ++ r.noted).filter
        (fun note => !note.isExecuting) = (done.notes false).reverse ++ r.untraced.noted := by
      rw [List.filter_append, List.filter_reverse, done.filter_notes]
      rfl
    simp only [untraced, hnoted]

theorem advance_untraced (r : Runner) (budget : Nat) :
    r.untraced.advance budget = ((r.advance budget).1, (r.advance budget).2.untraced) := by
  induction budget generalizing r with
  | zero => rfl
  | succ budget ih =>
    have hend : r.untraced.isFinished = r.isFinished := rfl
    have hlimit : r.untraced.limitReached = r.limitReached := rfl
    have hstop : r.untraced.config.stopAtBreakpoints = r.config.stopAtBreakpoints := rfl
    rw [advance, advance, hend, hlimit, step_untraced, hstop]
    split
    · rfl
    · split
      · rfl
      · obtain ⟨result, next⟩ := r.step
        cases result with
        | error e => rfl
        | ok done =>
          dsimp only
          split
          · rfl
          · exact ih next

theorem tick_untraced (r : Runner) :
    r.untraced.tick = (r.tick.1, r.tick.2.untraced) := by
  have hpaused : r.untraced.paused = r.paused := rfl
  have hbudget : r.untraced.config.stepsPerTick = r.config.stepsPerTick := rfl
  unfold tick runFor
  rw [hpaused, hbudget]
  split
  · rfl
  · exact r.advance_untraced _

end Runner

namespace Host

/-- The host as it would be without tracing. -/
def untraced (host : Host) : Host :=
  { host with runner := host.runner.untraced }

theorem tick_untraced (host : Host) :
    host.untraced.tick = host.tick.map (Prod.map id Host.untraced) := by
  have hrunner : host.untraced.runner = host.runner.untraced := rfl
  unfold Host.tick
  rw [hrunner, Runner.tick_untraced]
  obtain ⟨result, t⟩ := host.runner.tick
  cases result with
  | error e => rfl
  | ok halt? =>
    rcases halt? with _ | (_ | _ | _ | _)
    · rfl
    · rfl
    · rfl
    · rfl
    · rfl

theorem run_untraced (host : Host) (ticks : Nat) :
    host.untraced.run ticks = (host.run ticks).map (Prod.map id Host.untraced) := by
  induction ticks generalizing host with
  | zero => rfl
  | succ ticks ih =>
    rw [Host.run, Host.run, tick_untraced]
    rcases host.tick with _ | ⟨_ | halt, next⟩
    · rfl
    · exact ih next
    · rfl

/-- Running without tracing is running with it and forgetting what was traced. -/
theorem run_without_trace (machine : Machine) (config : RunConfig) (ticks : Nat) :
    (Host.start machine { config with trace := false }).bind (·.run ticks) =
      ((Host.start machine { config with trace := true }).bind (·.run ticks)).map
        (Prod.map id Host.untraced) := by
  let traced : Host := { runner := { machine, config := { config with trace := true } } }
  have hrun : traced.untraced.run ticks = (traced.run ticks).map (Prod.map id Host.untraced) :=
    traced.run_untraced ticks
  unfold Host.start Runner.start
  dsimp only
  split
  · rfl
  · exact hrun

end Host

namespace Runner

variable {r next t : Runner} {done : Step} {executed : List Step} {halt? : Option Halt}

/-- The notes on an ending by the limit. -/
def limitNotes (halt? : Option Halt) (steps : Nat) : List RunNote :=
  if halt? = some .stepLimit then [.limitReached steps] else []

/-- The notes of a run that executed the steps: those on each of them, and on the limit if it ended the
run. -/
def Notes (r : Runner) (executed : List Step) (halt? : Option Halt) (t : Runner) : Prop :=
  t.notes = r.notes ++ (executed.flatMap (Step.notes · r.config.trace) ++ limitNotes halt? t.steps)

theorem Notes.refl (r : Runner) (hhalt : halt? ≠ some .stepLimit) : r.Notes [] halt? r := by
  unfold Notes limitNotes
  rw [if_neg hhalt, List.flatMap_nil, List.append_nil, List.append_nil]

theorem Notes.limit (r : Runner) : r.Notes [] (some .stepLimit) (r.note (.limitReached r.steps)) :=
  List.reverse_cons

theorem Notes.cons (h : r.step = (.ok done, next)) (hlater : next.Notes executed halt? t) :
    r.Notes (done :: executed) halt? t := by
  obtain ⟨hconfig, -, -⟩ := step_fields h
  unfold Notes at hlater ⊢
  rw [hlater, notes_step h, hconfig, List.flatMap_cons, List.append_assoc, List.append_assoc]

theorem exists_notes_advance {budget : Nat} (h : r.advance budget = (.ok halt?, t)) :
    ∃ executed, r.Ran executed halt? t ∧ r.Notes executed halt? t := by
  induction budget generalizing r with
  | zero =>
    obtain ⟨rfl, rfl⟩ := okPair_inj h
    refine ⟨[], .refl r fun state => ?_, .refl r ?_⟩
    · split <;> simp
    · split <;> simp
  | succ budget ih =>
    unfold advance at h
    cases hend : r.isFinished with
    | true =>
      rw [hend, if_pos rfl] at h
      obtain ⟨rfl, rfl⟩ := okPair_inj h
      exact ⟨[], .refl r (by simp), .refl r (by simp)⟩
    | false =>
      rw [hend, if_neg Bool.false_ne_true] at h
      cases hlimit : r.limitReached with
      | true =>
        rw [hlimit, if_pos rfl] at h
        obtain ⟨rfl, rfl⟩ := okPair_inj h
        exact ⟨[], .limit r, .limit r⟩
      | false =>
        obtain ⟨done, next, hstep⟩ := exists_step hend
        rw [hlimit, if_neg Bool.false_ne_true, hstep] at h
        dsimp only at h
        split at h
        · obtain ⟨rfl, rfl⟩ := okPair_inj h
          have hone : r.Notes [done] none next := .cons hstep (.refl next (by simp))
          exact ⟨[done], .breakpoint hstep, hone⟩
        · obtain ⟨executed, hran, hnotes⟩ := ih h
          exact ⟨done :: executed, hran.cons hstep, hnotes.cons hstep⟩

end Runner

/-- Steps that go on from where others have led, with their output passed on in between, are steps of one
run. -/
theorem Machine.steps_append {m t : Machine} {executed later : List Step}
    (hexecuted : (m.steps executed.length).1 = executed)
    (hlater : (m.steps executed.length).2.drained.steps later.length = (later, t)) :
    (m.steps (executed ++ later).length).1 = executed ++ later ∧
      (m.steps (executed ++ later).length).2.drained = t.drained := by
  obtain ⟨hsteps, hdrained, -⟩ := (m.steps executed.length).2.steps_drained later.length
  rw [hlater] at hsteps hdrained
  rw [List.length_append, m.steps_add]
  dsimp only
  rw [hexecuted, ← hsteps, hdrained]
  exact ⟨rfl, rfl⟩

namespace Host

/-- The notes on the end of a run. -/
def closing (steps : Nat) : Option Halt → List RunNote
  | none => []
  | some halt => Runner.limitNotes (some halt) steps ++ [.stopped steps halt]

/-- A host that has run a machine for some steps, and what it has noted of them. -/
structure Ran (m : Machine) (executed : List Step) (halt? : Option Halt) (host : Host) : Prop where
  steps : (m.steps executed.length).1 = executed
  machine : host.runner.machine = (m.steps executed.length).2.drained
  count : host.runner.steps = executed.length
  notes : host.runner.notes = executed.flatMap (Step.notes · host.runner.config.trace) ++
    closing host.runner.steps halt?

variable {m : Machine} {host next final : Host} {executed : List Step} {halt? : Option Halt}

/-- A host that goes on by a run of its runner, and passes on the output. -/
theorem Ran.append {later : List Step} {inner? : Option Halt} {t : Runner} {added : List RunNote}
    (h : host.Ran m executed none) (hran : host.runner.Ran later inner? t)
    (hnotes : host.runner.Notes later inner? t) (hmachine : next.runner.machine = t.machine.drained)
    (hsteps : next.runner.steps = t.steps) (hconfig : next.runner.config = t.config)
    (hadded : next.runner.notes = t.notes ++ added)
    (hclosing : Runner.limitNotes inner? t.steps ++ added = closing t.steps halt?) :
    next.Ran m (executed ++ later) halt? := by
  have hgoes := hran.machine
  rw [h.machine] at hgoes
  obtain ⟨hall, hdrained⟩ := Machine.steps_append h.steps hgoes
  have htrace : next.runner.config = host.runner.config := hconfig.trans hran.config
  refine ⟨hall, hmachine.trans hdrained.symm, ?_, ?_⟩
  · rw [hsteps, hran.steps, h.count, List.length_append]
  · have hbefore : host.runner.notes = executed.flatMap (Step.notes · host.runner.config.trace) :=
      h.notes.trans (List.append_nil _)
    calc next.runner.notes
      _ = host.runner.notes ++ (later.flatMap (Step.notes · host.runner.config.trace) ++
          Runner.limitNotes inner? t.steps) ++ added := by rw [hadded, hnotes]
      _ = host.runner.notes ++ later.flatMap (Step.notes · host.runner.config.trace) ++
          closing t.steps halt? := by rw [← hclosing]; simp only [List.append_assoc]
      _ = (executed ++ later).flatMap (Step.notes · next.runner.config.trace) ++
          closing next.runner.steps halt? := by
        rw [hbefore, ← List.flatMap_append, htrace, hsteps]

theorem Ran.tick (h : host.Ran m executed none) (hpaused : host.runner.paused = false)
    (htick : host.tick = .ok (halt?, next)) :
    ∃ later, next.Ran m (executed ++ later) halt? ∧ next.runner.config = host.runner.config ∧
      next.runner.paused = false := by
  have hrunner : host.runner.tick = host.runner.advance host.runner.config.stepsPerTick := by
    unfold Runner.tick Runner.runFor
    rw [hpaused, if_neg Bool.false_ne_true]
  unfold Host.tick at htick
  rw [hrunner] at htick
  rcases hadvance : host.runner.advance host.runner.config.stepsPerTick with ⟨result, t⟩
  cases result with
  | error e =>
    rw [hadvance] at htick
    cases htick
  | ok inner? =>
    obtain ⟨later, hran, hnotes⟩ := Runner.exists_notes_advance hadvance
    have hgoes (hno : ∀ state, inner? ≠ some (.breakpoint state)) : t.paused = false := by
      rw [← Bool.not_eq_true, hran.paused, hpaused]
      simp [hno]
    rw [hadvance] at htick
    refine ⟨later, ?_⟩
    rcases inner? with _ | (_ | state | _ | _)
    · obtain ⟨rfl, rfl⟩ := Prod.mk.inj (Except.ok.inj htick)
      exact ⟨h.append hran hnotes rfl rfl rfl (List.append_nil _).symm rfl, hran.config,
        hgoes (by simp)⟩
    · obtain ⟨rfl, rfl⟩ := Prod.mk.inj (Except.ok.inj htick)
      exact ⟨h.append hran hnotes rfl rfl rfl List.reverse_cons rfl, hran.config, hgoes (by simp)⟩
    · obtain ⟨rfl, rfl⟩ := Prod.mk.inj (Except.ok.inj htick)
      exact ⟨h.append hran hnotes rfl rfl rfl (List.append_nil _).symm rfl, hran.config, rfl⟩
    · obtain ⟨rfl, rfl⟩ := Prod.mk.inj (Except.ok.inj htick)
      exact ⟨h.append hran hnotes rfl rfl rfl List.reverse_cons rfl, hran.config, hgoes (by simp)⟩
    · obtain ⟨rfl, rfl⟩ := Prod.mk.inj (Except.ok.inj htick)
      exact ⟨h.append hran hnotes rfl rfl rfl List.reverse_cons rfl, hran.config, hgoes (by simp)⟩

theorem Ran.run {halt : Halt} {ticks : Nat} (h : host.Ran m executed none)
    (hpaused : host.runner.paused = false) (hrun : host.run ticks = .ok (some halt, final)) :
    ∃ all, final.Ran m all (some halt) ∧ final.runner.config = host.runner.config := by
  induction ticks generalizing host executed with
  | zero => cases hrun
  | succ ticks ih =>
    rw [Host.run] at hrun
    cases htick : host.tick with
    | error e =>
      rw [htick] at hrun
      cases hrun
    | ok result =>
      obtain ⟨halt?, next⟩ := result
      obtain ⟨later, hran, hconfig, hstill⟩ := h.tick hpaused htick
      rw [htick] at hrun
      cases halt? with
      | none =>
        obtain ⟨all, hall, hsame⟩ := ih hran hstill hrun
        exact ⟨all, hall, hsame.trans hconfig⟩
      | some other =>
        obtain ⟨hother, rfl⟩ := Prod.mk.inj (Except.ok.inj hrun)
        rw [hother] at hran
        exact ⟨_, hran, hconfig⟩

end Host

namespace Log.Event

/-- The text of a field. -/
def field? (event : Event) (name : String) : Option String :=
  (event.fields.find? fun field => field.1 == name).map Prod.snd

/-- The event announces an instruction that is about to be executed. -/
def announces (event : Event) : Bool :=
  event.message == "executing"

/-- The event tells of a fault or of a breakpoint. -/
def reports (event : Event) : Bool :=
  event.message == "runtime error" || event.message == "breakpoint"

end Log.Event

theorem RunNote.announces_event (note : RunNote) : note.event.announces = note.isExecuting := by
  cases note with
  | _ => rfl

/-- The log without its announcements is that of the runner without tracing. -/
theorem Runner.log_untraced (r : Runner) :
    r.log.filter (fun event => !event.announces) = r.untraced.log := by
  have hkept : ((fun event : Log.Event => !event.announces) ∘ RunNote.event) =
      fun note => !note.isExecuting := by
    funext note
    exact congrArg not note.announces_event
  unfold Runner.log Runner.notes
  rw [List.filter_map, hkept, List.filter_reverse]
  rfl

/-- Where a list is made of sections, each with a head and a tail, splitting it at the heads gives the
tails back, with what closes the list behind the last of them. -/
theorem splitOnP_sections {α β : Type} {q : β → Bool} {head : α → β} {tail : α → List β}
    (hhead : ∀ a, q (head a) = true) (htail : ∀ a, ∀ b ∈ tail a, q b = false)
    {closing : List β} (hclosing : ∀ b ∈ closing, q b = false) {items : List α} {first : List β}
    (hfirst : ∀ b ∈ first, q b = false) :
    ∀ (index : Nat) part, (first :: items.map tail)[index]? = some part →
      ∃ later, (later = [] ∨ later = closing) ∧
        ((first ++ (items.flatMap (fun a => head a :: tail a) ++ closing)).splitOnP q)[index]? =
          some (part ++ later) := by
  -- What stands before the first head is any list without heads, so the tail of a section can be it.
  induction items generalizing first with
  | nil =>
    have hnone : ∀ b ∈ first ++ closing, q b = false := by
      intro b hb
      rcases List.mem_append.mp hb with hb | hb
      · exact hfirst b hb
      · exact hclosing b hb
    rw [List.flatMap_nil, List.nil_append, List.splitOnP_eq_singleton hnone]
    intro index part hpart
    refine ⟨closing, Or.inr rfl, ?_⟩
    cases index with
    | zero => rw [← Option.some.inj hpart, List.getElem?_cons_zero]
    | succ index => cases hpart
  | cons a items ih =>
    have hsplit : first ++ ((a :: items).flatMap (fun a => head a :: tail a) ++ closing) =
        first ++ head a :: (tail a ++ (items.flatMap (fun a => head a :: tail a) ++ closing)) := by
      rw [List.flatMap_cons, List.cons_append, List.cons_append, List.append_assoc]
    rw [hsplit, List.splitOnP_append_cons_of_forall_mem hfirst _ (hhead a)]
    intro index part hpart
    cases index with
    | zero =>
      obtain rfl := Option.some.inj hpart
      refine ⟨[], Or.inl rfl, ?_⟩
      rw [List.append_nil, List.getElem?_cons_zero]
    | succ index => exact ih (htail a) index part hpart

/-- Numbers in brackets, with a comma and a blank between them. -/
def bracketed (values : List Int64) : String :=
  "[" ++ String.intercalate ", " (values.map Decimal.ofWord) ++ "]"

/-- What stands behind the first number. -/
def closingText (values : List Int64) : List Char :=
  values.flatMap (fun value => ',' :: ' ' :: (Decimal.ofWord value).toList) ++ [']']

theorem closingText_cons (value : Int64) (values : List Int64) : closingText (value :: values) =
    ',' :: ' ' :: ((Decimal.ofWord value).toList ++ closingText values) := by
  simp [closingText]

theorem toList_bracketed_nil : (bracketed []).toList = ['[', ']'] := by
  decide +kernel

theorem toList_bracketed_cons (value : Int64) (values : List Int64) :
    (bracketed (value :: values)).toList =
      '[' :: ((Decimal.ofWord value).toList ++ closingText values) := by
  have hinner : (String.intercalate ", " ((value :: values).map Decimal.ofWord)).toList ++ [']'] =
      (Decimal.ofWord value).toList ++ closingText values := by
    induction values generalizing value with
    | nil => simp [closingText]
    | cons next later ih =>
      rw [closingText_cons, ← ih next]
      simp [String.toList_intercalate]
  unfold bracketed
  rw [String.toList_append, String.toList_append, List.append_assoc]
  exact congrArg ('[' :: ·) hinner

theorem not_isDigit_closingText (values : List Int64) :
    ∀ c ∈ (closingText values).head?, c.isDigit = false := by
  cases values with
  | nil => simp [closingText]
  | cons value values => simp [closingText_cons]

theorem closingText_injective {values others : List Int64}
    (h : closingText values = closingText others) : values = others := by
  induction values generalizing others with
  | nil =>
    cases others with
    | nil => rfl
    | cons other others =>
      rw [closingText_cons] at h
      cases h
  | cons value values ih =>
    cases others with
    | nil =>
      rw [closingText_cons] at h
      cases h
    | cons other others =>
      rw [closingText_cons, closingText_cons] at h
      obtain ⟨rfl, hlater⟩ := Decimal.ofWord_append_injective (not_isDigit_closingText values)
        (not_isDigit_closingText others) (List.cons.inj (List.cons.inj h).2).2
      rw [ih hlater]

/-- Numbers can be read off their text. -/
theorem bracketed_injective : Function.Injective bracketed := by
  have hne (value : Int64) (values : List Int64) : bracketed [] ≠ bracketed (value :: values) := by
    intro h
    have hlength := congrArg (fun text => text.toList.length) h
    have hvalue := List.length_pos_iff.mpr (Decimal.ofWord_ne_nil value)
    rw [toList_bracketed_nil, toList_bracketed_cons] at hlength
    simp only [closingText, List.length_cons, List.length_append, List.length_nil] at hlength
    omega
  intro values others h
  cases values with
  | nil =>
    cases others with
    | nil => rfl
    | cons other others => exact absurd h (hne other others)
  | cons value values =>
    cases others with
    | nil => exact absurd h.symm (hne value values)
    | cons other others =>
      have htext := congrArg String.toList h
      rw [toList_bracketed_cons, toList_bracketed_cons] at htext
      obtain ⟨rfl, hlater⟩ := Decimal.ofWord_append_injective (not_isDigit_closingText values)
        (not_isDigit_closingText others) (List.cons.inj htext).2
      rw [closingText_injective hlater]

namespace Step

/-- The announcement of a step. -/
def announcement (done : Step) : Log.Event :=
  (RunNote.executing done.index done.instruction done.before).event

/-- What is logged behind the announcement of a step. -/
def reports (done : Step) : List Log.Event :=
  (done.notes false).map RunNote.event

theorem mem_reports {done : Step} {event : Log.Event} (h : event ∈ done.reports) :
    event.announces = false ∧ event.reports = true := by
  simp only [reports, Step.notes, Bool.false_eq_true, if_false, List.nil_append, List.map_append,
    List.map_map, List.mem_append, List.mem_map] at h
  rcases h with ⟨fault, -, rfl⟩ | ⟨state, -, rfl⟩
  · exact ⟨rfl, rfl⟩
  · exact ⟨rfl, rfl⟩

end Step

/-- The events on the end of a run. -/
def Host.closingEvents (steps : Nat) (halt : Halt) : List Log.Event :=
  (Host.closing steps (some halt)).map RunNote.event

theorem Host.mem_closingEvents {steps : Nat} {halt : Halt} {event : Log.Event}
    (h : event ∈ Host.closingEvents steps halt) :
    event.announces = false ∧ event.reports = false := by
  simp only [closingEvents, closing, Runner.limitNotes, List.map_append, List.mem_append] at h
  rcases h with hlimit | hstopped
  · split at hlimit
    · obtain rfl := List.mem_singleton.mp hlimit
      exact ⟨rfl, rfl⟩
    · cases hlimit
  · obtain rfl := List.mem_singleton.mp hstopped
    exact ⟨rfl, rfl⟩

/-- The log of traced steps, event by event, and what closes it. -/
def tracedLog (executed : List Step) (closing : List Log.Event) : List Log.Event :=
  executed.flatMap (fun done => done.announcement :: done.reports) ++ closing

theorem Host.Ran.log_eq {m : Machine} {executed : List Step} {halt : Halt} {host : Host}
    (h : host.Ran m executed (some halt)) (htrace : host.runner.config.trace = true) :
    host.runner.log = tracedLog executed (closingEvents host.runner.steps halt) := by
  unfold Runner.log
  rw [h.notes, htrace, List.map_append, List.map_flatMap]
  rfl

namespace Machine

variable {m : Machine}

theorem before_of_getElem? {count made : Nat} {done : Step}
    (h : (m.steps count).1[made]? = some done) : done.before = (m.steps made).2.state := by
  obtain ⟨i, -, hdone, -⟩ := step_eq_ok (step_of_getElem? h)
  rw [hdone]

/-- A stretch of a log reports what the next instruction of the machine leads to: its fault, if it has
one, and behind it the breakpoint that it carries, if it does. -/
def Reported (m : Machine) (stretch : List Log.Event) : Prop :=
  ∃ i done next, m.program.get? m.state.pc = some i ∧ m.step = (.ok done, next) ∧
    stretch.filter Log.Event.reports =
      (done.fault.toList.map fun fault => ⟨.warn, "runtime error",
        [("pc", Decimal.ofNat m.state.pc), ("instruction", i.text), ("error", fault.message)]⟩) ++
      if i.breakpoint then
        [⟨.debug, "breakpoint", [("pc", Decimal.ofNat m.state.pc), ("state", next.state.text)]⟩]
      else []

/-- A log tells of the first `count` steps of a machine. -/
structure Traced (m : Machine) (count : Nat) (log : List Log.Event) : Prop where
  /-- So many steps can be made. -/
  length : (m.steps count).1.length = count
  indices : (log.filter Log.Event.announces).map (·.field? "pc") =
    (m.steps count).1.map fun done => some (Decimal.ofNat done.index)
  /-- Each announcement gives the accumulator, and the stack from its bottom up, as they are before
  the step. No other values have these texts. -/
  told : ∀ made < count, ∃ event, (log.filter Log.Event.announces)[made]? = some event ∧
    (∀ value, event.field? "accumulator" = some (Decimal.ofWord value) ↔
      value = (m.steps made).2.state.accumulator) ∧
    ∀ values, event.field? "stack" = some (bracketed values) ↔
      values = (m.steps made).2.state.stack.reverse
  /-- Behind each announcement, up to the next one or the end, stands what the instruction led to. -/
  reported : ∀ made < count, ∃ stretch,
    (log.splitOnP Log.Event.announces)[made + 1]? = some stretch ∧ (m.steps made).2.Reported stretch

variable {executed : List Step} {closing : List Log.Event}

/-- The announcements in a log are those of the steps. -/
theorem filter_announces (hclosing : ∀ event ∈ closing, event.announces = false) :
    (tracedLog executed closing).filter Log.Event.announces = executed.map Step.announcement := by
  have hone (done : Step) : (done.announcement :: done.reports).filter Log.Event.announces =
      [done.announcement] := by
    have hreports : done.reports.filter Log.Event.announces = [] := by
      apply List.filter_eq_nil_iff.mpr
      intro event hevent
      exact Bool.eq_false_iff.mp (Step.mem_reports hevent).1
    rw [List.filter_cons_of_pos rfl, hreports]
  have hnone : closing.filter Log.Event.announces = [] := by
    apply List.filter_eq_nil_iff.mpr
    intro event hevent
    exact Bool.eq_false_iff.mp (hclosing event hevent)
  unfold tracedLog
  rw [List.filter_append, hnone, List.append_nil, List.filter_flatMap]
  simp only [hone]
  exact List.flatMap_pure_eq_map _ _

/-- The announcement of a step tells the state before it, as far as it goes. -/
theorem field_announcement (done : Step) :
    (∀ value, done.announcement.field? "accumulator" = some (Decimal.ofWord value) ↔
      value = done.before.accumulator) ∧
    ∀ values, done.announcement.field? "stack" = some (bracketed values) ↔
      values = done.before.stack.reverse := by
  have haccumulator : done.announcement.field? "accumulator" =
      some (Decimal.ofWord done.before.accumulator) := rfl
  have hstack : done.announcement.field? "stack" = some (bracketed done.before.stack.reverse) := rfl
  rw [haccumulator, hstack]
  refine ⟨fun value => ?_, fun values => ?_⟩
  · rw [Option.some.injEq, Decimal.ofWord_injective.eq_iff, eq_comm]
  · rw [Option.some.injEq, bracketed_injective.eq_iff, eq_comm]

/-- Behind the announcement of a step, up to the next one or the end, stand its reports. -/
theorem exists_stretch {made : Nat} {done : Step} (hdone : executed[made]? = some done)
    (hclosing : ∀ event ∈ closing, event.announces = false ∧ event.reports = false) :
    ∃ later, (∀ event ∈ later, event.reports = false) ∧
      ((tracedLog executed closing).splitOnP Log.Event.announces)[made + 1]? =
        some (done.reports ++ later) := by
  have hpart : ([] :: executed.map Step.reports)[made + 1]? = some done.reports := by
    rw [List.getElem?_cons_succ, List.getElem?_map, hdone]
    rfl
  have hhead (done : Step) : done.announcement.announces = true := rfl
  have htail (done : Step) : ∀ event ∈ done.reports, event.announces = false :=
    fun event hevent => (Step.mem_reports hevent).1
  obtain ⟨later, hlater, hstretch⟩ := splitOnP_sections hhead htail
    (fun event hevent => (hclosing event hevent).1) (fun _ hno => absurd hno List.not_mem_nil)
    (made + 1) _ hpart
  refine ⟨later, fun event hevent => ?_, hstretch⟩
  rcases hlater with rfl | rfl
  · cases hevent
  · exact (hclosing event hevent).2

theorem reported_of_step {done : Step} {next : Machine} (h : m.step = (.ok done, next))
    {later : List Log.Event} (hlater : ∀ event ∈ later, event.reports = false) :
    m.Reported (done.reports ++ later) := by
  obtain ⟨i, hget, hdone, -⟩ := step_eq_ok h
  have hafter : done.after = next.state := after_step h
  refine ⟨i, done, next, hget, h, ?_⟩
  have hnone : later.filter Log.Event.reports = [] := by
    apply List.filter_eq_nil_iff.mpr
    intro event hevent
    exact Bool.eq_false_iff.mp (hlater event hevent)
  have hall : done.reports.filter Log.Event.reports = done.reports := by
    apply List.filter_eq_self.mpr
    intro event hevent
    exact (Step.mem_reports hevent).2
  have hindex : done.index = m.state.pc := index_step h
  have hinstruction : done.instruction = i := by rw [hdone]
  rw [List.filter_append, hnone, hall, List.append_nil]
  unfold Step.reports Step.notes Step.hit? Step.breakpoint
  rw [hindex, hinstruction, hafter, if_neg Bool.false_ne_true, List.nil_append, List.map_append,
    List.map_map]
  cases i.breakpoint with
  | true => rfl
  | false => rfl

/-- The log of the first steps of a machine tells of them. -/
theorem traced_of_steps (m : Machine) {count : Nat} (hlength : (m.steps count).1.length = count)
    (hclosing : ∀ event ∈ closing, event.announces = false ∧ event.reports = false) :
    m.Traced count (tracedLog (m.steps count).1 closing) := by
  have hannounced : (tracedLog (m.steps count).1 closing).filter Log.Event.announces =
      (m.steps count).1.map Step.announcement :=
    filter_announces fun event hevent => (hclosing event hevent).1
  refine ⟨hlength, ?_, ?_, ?_⟩
  · rw [hannounced, List.map_map]
    rfl
  · intro made hmade
    rw [← hlength] at hmade
    have hdone := List.getElem?_eq_getElem hmade
    refine ⟨(m.steps count).1[made].announcement, ?_, ?_⟩
    · rw [hannounced, List.getElem?_map, hdone]
      rfl
    · rw [← before_of_getElem? hdone]
      exact field_announcement _
  · intro made hmade
    rw [← hlength] at hmade
    have hdone := List.getElem?_eq_getElem hmade
    obtain ⟨later, hlater, hstretch⟩ := exists_stretch hdone hclosing
    refine ⟨_, hstretch, ?_⟩
    exact reported_of_step (step_of_getElem? hdone) hlater

end Machine

namespace Host

variable {machine : Machine} {config : RunConfig} {ticks : Nat} {halt : Halt} {final : Host}

/-- A run that returns is a traced one, or a traced one without its tracing. -/
theorem exists_traced_run
    (h : (Host.start machine config).bind (·.run ticks) = .ok (some halt, final)) :
    ∃ traced : Host,
      (Host.start machine { config with trace := true }).bind (·.run ticks) =
        .ok (some halt, traced) ∧
      final = if config.trace then traced else traced.untraced := by
  obtain ⟨trace, stopAtBreakpoints, stepLimit, stepsPerTick⟩ := config
  cases trace with
  | true => exact ⟨final, h, rfl⟩
  | false =>
    let traced : RunConfig := ⟨true, stopAtBreakpoints, stepLimit, stepsPerTick⟩
    have hmap := (run_without_trace machine traced ticks).symm.trans h
    cases hrun : (Host.start machine traced).bind (·.run ticks) with
    | error e =>
      rw [hrun] at hmap
      cases hmap
    | ok result =>
      rw [hrun] at hmap
      obtain ⟨halt?, host⟩ := result
      obtain ⟨hhalt, rfl⟩ := Prod.mk.inj (Except.ok.inj hmap)
      obtain rfl : halt? = some halt := hhalt
      exact ⟨host, rfl, rfl⟩

/-- A started host that returns has run the machine. -/
theorem ran_of_start_run {program : Program} {input : Input}
    (h : (Host.start { program, input } config).bind (·.run ticks) = .ok (some halt, final)) :
    ∃ executed, final.Ran { program, input } executed (some halt) ∧
      final.runner.config = config := by
  have hpos : 0 < config.stepsPerTick := by
    apply Nat.pos_of_ne_zero
    intro hzero
    unfold Host.start Runner.start at h
    rw [if_pos hzero] at h
    cases h
  rw [Host.start_eq hpos] at h
  have hstart : Host.Ran { program, input } [] none
      { runner := { machine := { program, input }, config } } := ⟨rfl, rfl, rfl, rfl⟩
  exact hstart.run rfl h

end Host

/-- Tracing changes nothing but the log. A host that returns does so with tracing and without it, for the
same reason and with the same output, reports and machine; what is in the log of the traced run besides
the announcements is the log of the other one. The announcements tell of all the executed instructions. -/
theorem Host.tracing_only_adds_announcements (program : Program) (input : Input)
    (config : RunConfig) {ticks : Nat} {halt : Halt} {final : Host}
    (h : (Host.start { program, input } config).bind (·.run ticks) = .ok (some halt, final)) :
    ∃ traced plain : Host,
      (Host.start { program, input } { config with trace := true }).bind (·.run ticks) =
        .ok (some halt, traced) ∧
      (Host.start { program, input } { config with trace := false }).bind (·.run ticks) =
        .ok (some halt, plain) ∧
      final = (if config.trace then traced else plain) ∧
      traced.printed = plain.printed ∧ traced.reported = plain.reported ∧
      traced.runner.machine = plain.runner.machine ∧
      traced.runner.log.filter (fun event => !event.announces) = plain.runner.log ∧
      Machine.Traced { program, input } traced.runner.steps traced.runner.log := by
  obtain ⟨traced, htraced, hfinal⟩ := Host.exists_traced_run h
  obtain ⟨executed, hran, hconfig⟩ := Host.ran_of_start_run htraced
  refine ⟨traced, traced.untraced, htraced, ?_, hfinal, rfl, rfl, rfl, traced.runner.log_untraced, ?_⟩
  · rw [Host.run_without_trace, htraced]
    rfl
  · rw [hran.log_eq (congrArg RunConfig.trace hconfig), hran.count]
    nth_rewrite 2 [← hran.steps]
    exact Machine.traced_of_steps _ (congrArg List.length hran.steps)
      fun event hevent => Host.mem_closingEvents hevent

/-- A jump to where the stack says, which is nowhere, with a breakpoint. -/
def tripping : Program :=
  .ofInstructions #[⟨.assign, some (.literal 7), false, none⟩, ⟨.push, none, false, none⟩,
    ⟨.assign, some (.literal 9), false, none⟩, ⟨.push, none, false, none⟩,
    ⟨.jump, some (.register .stackTop), true, none⟩, ⟨.putNumber, none, false, none⟩]

theorem tripping_traced :
    ∃ traced plain : Host,
      (Host.start { program := tripping } ⟨true, true, some 9, 2⟩).bind (·.run 10) =
        .ok (some .finished, traced) ∧
      (Host.start { program := tripping } ⟨false, true, some 9, 2⟩).bind (·.run 10) =
        .ok (some .finished, plain) ∧
      traced.runner.log.filter (fun event => !event.announces) = plain.runner.log ∧
      (traced.runner.log.filter Log.Event.announces).map (·.field? "pc") =
        [some "0", some "1", some "2", some "3", some "4", some "5"] ∧
      (∃ event, (traced.runner.log.filter Log.Event.announces)[4]? = some event ∧
        event.field? "accumulator" = some "9" ∧ event.field? "stack" = some "[7, 9]") ∧
      (∃ event, (traced.runner.log.filter Log.Event.announces)[5]? = some event ∧
        event.field? "accumulator" = some "9" ∧ event.field? "stack" = some "[7]") ∧
      ∃ stretch, (traced.runner.log.splitOnP Log.Event.announces)[5]? = some stretch ∧
        (stretch.filter Log.Event.reports).map (·.message) = ["runtime error", "breakpoint"] := by
  have hhalt : (Machine.steps { program := tripping } 9).2.haltAtLimit = .finished := by
    decide +kernel
  have hmade : (Machine.steps { program := tripping } 9).1.length = 6 := by decide +kernel
  have hpos : 0 < (⟨true, true, some 9, 2⟩ : RunConfig).stepsPerTick := by decide
  obtain ⟨final, hrun, hprogress⟩ :=
    Host.exists_run_of_stepLimit hpos rfl { program := tripping }
  rw [hhalt] at hrun
  have hsteps : final.runner.steps = 6 :=
    (congrArg Progress.steps hprogress).trans ((Nat.zero_add _).trans hmade)
  obtain ⟨traced, plain, htraced, hplain, hfinal, -, -, -, hlog, hcomplete⟩ :=
    Host.tracing_only_adds_announcements tripping .exhausted ⟨true, true, some 9, 2⟩ hrun
  obtain rfl : final = traced := hfinal
  rw [hsteps] at hcomplete
  have hnine : "9" = Decimal.ofWord 9 := by decide +kernel
  have hboth : "[7, 9]" = bracketed [7, 9] := by decide +kernel
  have hone : "[7]" = bracketed [7] := by decide +kernel
  refine ⟨final, plain, htraced, hplain, hlog, hcomplete.indices.trans ?_, ?_, ?_, ?_⟩
  · decide +kernel
  · obtain ⟨event, hevent, haccumulator, hstack⟩ := hcomplete.told 4 (by decide)
    rw [hnine, hboth]
    exact ⟨event, hevent, (haccumulator 9).mpr (by decide +kernel),
      (hstack [7, 9]).mpr (by decide +kernel)⟩
  · obtain ⟨event, hevent, haccumulator, hstack⟩ := hcomplete.told 5 (by decide)
    rw [hnine, hone]
    exact ⟨event, hevent, (haccumulator 9).mpr (by decide +kernel),
      (hstack [7]).mpr (by decide +kernel)⟩
  · let jumping : Machine := (Machine.steps { program := tripping } 4).2
    have hbreak : (jumping.program.get? jumping.state.pc).any Instruction.breakpoint = true := by
      decide +kernel
    have hfault : (jumping.step.1.toOption.bind Step.fault).isSome = true := by decide +kernel
    obtain ⟨stretch, hstretch, i, done, next, hget, hstep, hreports⟩ :=
      hcomplete.reported 4 (by decide)
    rw [hget, Option.any_some] at hbreak
    rw [hstep] at hfault
    obtain ⟨fault, hsome : done.fault = some fault⟩ := Option.isSome_iff_exists.mp hfault
    refine ⟨stretch, hstretch, ?_⟩
    rw [hreports, if_pos hbreak, hsome]
    rfl

end AccumulatorMachine
