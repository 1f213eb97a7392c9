import AccumulatorMachine.Proofs.Scheduling

/-!
Bounded runs of a runner. What a bounded run executes is said by the steps that the machine would make
by itself, cut off by the budget, by the limit and behind the first breakpoint. It makes the fewest
steps behind which there is a reason to stop, and says which reason it was.
-/
namespace AccumulatorMachine

/-- The items of a list through the first one that the predicate holds of. -/
def takeThrough {α : Type} (q : α → Bool) : List α → List α
  | [] => []
  | item :: rest => if q item then [item] else item :: takeThrough q rest

theorem length_takeThrough_le {α : Type} (q : α → Bool) (items : List α) :
    (takeThrough q items).length ≤ items.length := by
  induction items with
  | nil => exact Nat.le_refl _
  | cons item rest ih =>
    rw [takeThrough]
    split
    · exact Nat.succ_le_succ (Nat.zero_le _)
    · exact Nat.succ_le_succ ih

namespace Runner

/-- The part of a budget that the limit leaves. -/
def allowance (r : Runner) (budget : Nat) : Nat :=
  match r.config.stepLimit with
  | some limit => min budget (limit - r.steps)
  | none => budget

/-- A bounded run stops behind the step. -/
def stopsBehind (r : Runner) (done : Step) : Bool :=
  done.breakpoint && r.config.stopAtBreakpoints

/-- The steps of a bounded run: those that the machine makes by itself, as many as the budget and the
limit allow, through the first breakpoint that counts. A paused runner makes none. -/
def course (r : Runner) (budget : Nat) : List Step :=
  if r.paused then [] else takeThrough r.stopsBehind (r.machine.steps (r.allowance budget)).1

/-- What a run that executed the steps has come to. The machine has made these steps, each of them was
noted and counted, and only a note on the limit may follow. -/
structure Ran (r : Runner) (executed : List Step) (halt? : Option Halt) (t : Runner) : Prop where
  machine : r.machine.steps executed.length = (executed, t.machine)
  steps : t.steps = r.steps + executed.length
  config : t.config = r.config
  paused : t.paused = true ↔ r.paused = true ∨ ∃ state, halt? = some (.breakpoint state)
  hits : t.hits = r.hits ++ executed.flatMap fun done => done.hit?.toList
  notes : ∃ closing, t.notes = r.notes ++ (executed.flatMap (Step.notes · r.config.trace) ++ closing) ∧
    (closing = [] ∨ closing = [.limitReached t.steps])

variable {r next t : Runner} {done : Step} {executed : List Step} {halt? : Option Halt}

theorem hits_step (h : r.step = (.ok done, next)) : next.hits = r.hits ++ done.hit?.toList := by
  obtain ⟨-, hnext⟩ := step_eq_ok h
  have hseen : next.seen = done.hit?.toList ++ r.seen := congrArg Runner.seen hnext
  have hone : done.hit?.toList.reverse = done.hit?.toList := by
    cases done.hit? with
    | none => rfl
    | some state => rfl
  unfold hits
  rw [hseen, List.reverse_append, hone]

theorem notes_step (h : r.step = (.ok done, next)) :
    next.notes = r.notes ++ done.notes r.config.trace := by
  obtain ⟨-, hnext⟩ := step_eq_ok h
  have hnoted : next.noted = (done.notes r.config.trace).reverse ++ r.noted :=
    congrArg Runner.noted hnext
  unfold notes
  rw [hnoted, List.reverse_append, List.reverse_reverse]

theorem Ran.refl (r : Runner) (hhalt : ∀ state, halt? ≠ some (.breakpoint state)) :
    r.Ran [] halt? r where
  machine := rfl
  steps := rfl
  config := rfl
  paused := by simp [hhalt]
  hits := (List.append_nil _).symm
  notes := ⟨[], (List.append_nil _).symm, Or.inl rfl⟩

theorem Ran.limit (r : Runner) : r.Ran [] (some .stepLimit) (r.note (.limitReached r.steps)) where
  machine := rfl
  steps := rfl
  config := rfl
  paused := by simp [note]
  hits := (List.append_nil _).symm
  notes := ⟨[.limitReached r.steps], List.reverse_cons, Or.inr rfl⟩

/-- A step that a run begins with. -/
theorem Ran.cons (h : r.step = (.ok done, next)) (hlater : next.Ran executed halt? t) :
    r.Ran (done :: executed) halt? t := by
  obtain ⟨hconfig, hpaused, hsteps⟩ := step_fields h
  refine ⟨?_, ?_, hlater.config.trans hconfig, ?_, ?_, ?_⟩
  · rw [List.length_cons, Machine.steps_of_step (step_eq_ok h).1, hlater.machine]
  · rw [hlater.steps, hsteps, List.length_cons]
    omega
  · rw [hlater.paused, hpaused]
  · rw [hlater.hits, hits_step h, List.flatMap_cons, List.append_assoc]
  · obtain ⟨closing, hnotes, hclosing⟩ := hlater.notes
    refine ⟨closing, ?_, hclosing⟩
    rw [hnotes, notes_step h, hconfig, List.flatMap_cons, List.append_assoc, List.append_assoc]

/-- A breakpoint pauses the runner behind the step. -/
theorem Ran.breakpoint (h : r.step = (.ok done, next)) :
    r.Ran [done] (some (.breakpoint next.state)) { next with paused := true } := by
  have hone : r.Ran [done] none next := Ran.cons h (Ran.refl next (by simp))
  exact ⟨hone.machine, hone.steps, hone.config, ⟨fun _ => Or.inr ⟨_, rfl⟩, fun _ => rfl⟩,
    hone.hits, hone.notes⟩

/-- The last of `made` steps has a breakpoint, and the runner stops at breakpoints. -/
def BreaksAt (r : Runner) (made : Nat) : Prop :=
  1 ≤ made ∧ r.config.stopAtBreakpoints = true ∧
    (r.machine.steps made).1[made - 1]?.any Step.breakpoint = true

/-- After `made` steps the budget allows for one more, but the limit does not. -/
def LimitedAt (r : Runner) (budget made : Nat) : Prop :=
  made < budget ∧
    (r.config.stepLimit.any fun limit => decide (limit ≤ r.steps + made)) = true

instance (r : Runner) (made : Nat) : Decidable (r.BreaksAt made) :=
  inferInstanceAs (Decidable (_ ∧ _ ∧ _))

instance (r : Runner) (budget made : Nat) : Decidable (r.LimitedAt budget made) :=
  inferInstanceAs (Decidable (_ ∧ _))

/-- The reason for a halt after `made` steps. A breakpoint counts before the end of the program, and
the end before the limit. -/
def haltAfter (r : Runner) (budget made : Nat) : Option Halt :=
  if r.BreaksAt made then some (.breakpoint (r.machine.steps made).2.state)
  else if (r.machine.steps made).2.atEnd then some .finished
  else if r.LimitedAt budget made then some .stepLimit
  else none

theorem not_breaksAt_zero (r : Runner) : ¬r.BreaksAt 0 := by
  rintro ⟨hpos, -⟩
  exact Nat.not_succ_le_zero 0 hpos

theorem limitedAt_zero_iff (r : Runner) (budget : Nat) :
    r.LimitedAt (budget + 1) 0 ↔ r.limitReached = true := by
  constructor
  · intro h
    exact h.2
  · intro h
    exact ⟨Nat.succ_pos budget, h⟩

theorem breaksAt_one_iff (h : r.step = (.ok done, next)) :
    r.BreaksAt 1 ↔ r.stopsBehind done = true := by
  unfold BreaksAt stopsBehind
  rw [Machine.steps_of_step (step_eq_ok h).1, Bool.and_eq_true]
  simp [and_comm]

theorem breaksAt_succ_iff (h : r.step = (.ok done, next)) (hgo : r.stopsBehind done = false)
    (made : Nat) : r.BreaksAt (made + 1) ↔ next.BreaksAt made := by
  cases made with
  | zero =>
    have hnot : ¬r.BreaksAt 1 := by
      rw [breaksAt_one_iff h, hgo]
      exact Bool.false_ne_true
    exact iff_of_false hnot next.not_breaksAt_zero
  | succ made =>
    obtain ⟨hconfig, -, -⟩ := step_fields h
    unfold BreaksAt
    rw [Machine.steps_of_step (step_eq_ok h).1, hconfig]
    simp

theorem limitedAt_succ_iff (h : r.step = (.ok done, next)) (budget made : Nat) :
    r.LimitedAt (budget + 1) (made + 1) ↔ next.LimitedAt budget made := by
  obtain ⟨hconfig, -, hsteps⟩ := step_fields h
  have hcount : r.steps + (made + 1) = next.steps + made := by omega
  unfold LimitedAt
  rw [hconfig, hcount, Nat.add_lt_add_iff_right]

/-- The last step that was made is the one a run stops behind. -/
theorem breaksAt_length_iff {m : Machine}
    (h : r.machine.steps executed.length = (executed, m)) :
    r.BreaksAt executed.length ↔ executed.getLast?.any r.stopsBehind = true := by
  unfold BreaksAt
  rw [h, ← List.getLast?_eq_getElem?]
  cases hlast : executed.getLast? with
  | none => simp
  | some done =>
    have hpos : 1 ≤ executed.length := by
      apply List.length_pos_of_mem
      exact List.mem_of_getLast? hlast
    simp [stopsBehind, hpos, and_comm]

theorem haltAfter_eq_breakpoint_iff (r : Runner) (budget made : Nat) :
    (∃ state, r.haltAfter budget made = some (.breakpoint state)) ↔ r.BreaksAt made := by
  unfold haltAfter
  constructor
  · rintro ⟨state, h⟩
    by_contra hnot
    rw [if_neg hnot] at h
    split at h
    · cases h
    · split at h
      · cases h
      · cases h
  · intro hbreaks
    exact ⟨_, if_pos hbreaks⟩

theorem haltAfter_zero (r : Runner) (budget : Nat) : r.haltAfter budget 0 =
    if r.isFinished then some .finished else if r.LimitedAt budget 0 then some .stepLimit
      else none := by
  unfold haltAfter
  rw [if_neg r.not_breaksAt_zero]
  rfl

theorem haltAfter_one (h : r.step = (.ok done, next)) (hstop : r.stopsBehind done = true)
    (budget : Nat) : r.haltAfter budget 1 = some (.breakpoint next.state) := by
  unfold haltAfter
  rw [if_pos ((breaksAt_one_iff h).mpr hstop), Machine.steps_of_step (step_eq_ok h).1]
  rfl

theorem haltAfter_succ (h : r.step = (.ok done, next)) (hgo : r.stopsBehind done = false)
    (budget made : Nat) : r.haltAfter (budget + 1) (made + 1) = next.haltAfter budget made := by
  unfold haltAfter
  simp only [breaksAt_succ_iff h hgo, limitedAt_succ_iff h, Machine.steps_of_step (step_eq_ok h).1]

theorem course_of_allowance_eq_zero {budget : Nat} (h : r.allowance budget = 0) :
    r.course budget = [] := by
  unfold course
  rw [h]
  split
  · rfl
  · rfl

theorem course_zero (r : Runner) : r.course 0 = [] := by
  apply course_of_allowance_eq_zero
  unfold allowance
  split
  · exact Nat.zero_min _
  · rfl

theorem course_of_isFinished (h : r.isFinished = true) (budget : Nat) : r.course budget = [] := by
  unfold course
  rw [Machine.steps_of_atEnd h]
  split
  · rfl
  · rfl

theorem allowance_of_limitReached (h : r.limitReached = true) (budget : Nat) :
    r.allowance budget = 0 := by
  obtain ⟨limit, hlimit, hle⟩ := (Option.any_eq_true _ _).mp h
  unfold allowance
  rw [hlimit]
  have hreached := of_decide_eq_true hle
  dsimp only
  omega

theorem allowance_step (hlimit : r.limitReached = false) (h : r.step = (.ok done, next))
    (budget : Nat) : r.allowance (budget + 1) = next.allowance budget + 1 := by
  obtain ⟨hconfig, -, hsteps⟩ := step_fields h
  unfold limitReached at hlimit
  unfold allowance
  rw [hconfig, hsteps]
  cases hcase : r.config.stepLimit with
  | none => rfl
  | some limit =>
    rw [hcase] at hlimit
    have hless := of_decide_eq_false hlimit
    dsimp only
    omega

theorem stopsBehind_step (h : r.step = (.ok done, next)) : next.stopsBehind = r.stopsBehind := by
  obtain ⟨hconfig, -, -⟩ := step_fields h
  funext other
  unfold stopsBehind
  rw [hconfig]

/-- One step of the course, and the rest of it from the next runner on. -/
theorem course_step (hpaused : r.paused = false) (hlimit : r.limitReached = false)
    (h : r.step = (.ok done, next)) (budget : Nat) : r.course (budget + 1) =
      if r.stopsBehind done then [done] else done :: next.course budget := by
  obtain ⟨-, hstill, -⟩ := step_fields h
  unfold course
  rw [allowance_step hlimit h, Machine.steps_of_step (step_eq_ok h).1, hstill, hpaused,
    stopsBehind_step h]
  rfl

theorem ran_advance (hpaused : r.paused = false) (budget : Nat) :
    ∃ t, r.advance budget = (.ok (r.haltAfter budget (r.course budget).length), t) ∧
      r.Ran (r.course budget) (r.haltAfter budget (r.course budget).length) t := by
  -- The course is cut in the order in which the run looks: at the end, at the limit, at the breakpoint.
  induction budget generalizing r with
  | zero =>
    have hfree : ¬r.LimitedAt 0 0 := fun hno => Nat.lt_irrefl 0 hno.1
    rw [course_zero, List.length_nil, haltAfter_zero, if_neg hfree]
    refine ⟨r, rfl, .refl r fun state => ?_⟩
    cases r.isFinished with
    | true => simp
    | false => simp
  | succ budget ih =>
    unfold advance
    cases hend : r.isFinished with
    | true =>
      rw [course_of_isFinished hend, List.length_nil, haltAfter_zero, hend]
      exact ⟨r, rfl, .refl r (by simp)⟩
    | false =>
      rw [if_neg Bool.false_ne_true]
      cases hlimit : r.limitReached with
      | true =>
        rw [course_of_allowance_eq_zero (allowance_of_limitReached hlimit _), List.length_nil,
          haltAfter_zero, hend, if_pos ((limitedAt_zero_iff r budget).mpr hlimit)]
        exact ⟨_, rfl, .limit r⟩
      | false =>
        rw [if_neg Bool.false_ne_true]
        obtain ⟨done, next, hstep⟩ := exists_step hend
        obtain ⟨-, hstill, -⟩ := step_fields hstep
        rw [hstep, course_step hpaused hlimit hstep]
        dsimp only
        cases hstop : r.stopsBehind done with
        | true =>
          have hbreak : (done.breakpoint && r.config.stopAtBreakpoints) = true := hstop
          rw [if_pos rfl, if_pos hbreak, List.length_singleton, haltAfter_one hstep hstop]
          exact ⟨_, rfl, .breakpoint hstep⟩
        | false =>
          have hbreak : ¬(done.breakpoint && r.config.stopAtBreakpoints) = true :=
            Bool.eq_false_iff.mp hstop
          rw [if_neg Bool.false_ne_true, if_neg hbreak, List.length_cons,
            haltAfter_succ hstep hstop]
          obtain ⟨t, hrun, hran⟩ := ih (hstill.trans hpaused)
          exact ⟨t, hrun, hran.cons hstep⟩

/-- A bounded run never fails, and executes its course. -/
theorem ran_runFor (r : Runner) (budget : Nat) :
    ∃ halt? t, r.runFor budget = (.ok halt?, t) ∧ r.Ran (r.course budget) halt? t := by
  unfold runFor
  cases hpaused : r.paused with
  | true =>
    have hnone : r.course budget = [] := if_pos hpaused
    rw [hnone]
    exact ⟨_, r, rfl, .refl r (by simp)⟩
  | false =>
    rw [if_neg Bool.false_ne_true]
    obtain ⟨t, hrun, hran⟩ := ran_advance hpaused budget
    exact ⟨_, t, hrun, hran⟩

theorem length_course_le (r : Runner) (budget : Nat) :
    (r.course budget).length ≤ r.allowance budget := by
  unfold course
  split
  · exact Nat.zero_le _
  · exact Nat.le_trans (length_takeThrough_le _ _) (Machine.length_steps_le _ _)

theorem allowance_le {limit : Nat} (h : r.config.stepLimit = some limit) (budget : Nat) :
    r.allowance budget ≤ limit - r.steps := by
  unfold allowance
  rw [h]
  exact Nat.min_le_right _ _

/-- There is a reason to stop after `made` steps. -/
def StopsAt (r : Runner) (budget made : Nat) : Prop :=
  r.BreaksAt made ∨ (r.machine.steps made).2.atEnd = true ∨ r.LimitedAt budget made

instance (r : Runner) (budget made : Nat) : Decidable (r.StopsAt budget made) :=
  inferInstanceAs (Decidable (_ ∨ _ ∨ _))

/-- The least number of steps, from none to the whole budget, after which there is a reason to stop; the
whole budget if there is no such number. -/
def runLength (r : Runner) (budget : Nat) : Nat :=
  ((List.range (budget + 1)).find? fun made => decide (r.StopsAt budget made)).getD budget

theorem stopsAt_zero_iff (r : Runner) (budget : Nat) :
    r.StopsAt (budget + 1) 0 ↔ r.isFinished = true ∨ r.limitReached = true := by
  unfold StopsAt
  rw [limitedAt_zero_iff, or_iff_right r.not_breaksAt_zero]
  rfl

theorem stopsAt_succ_iff (h : r.step = (.ok done, next)) (hgo : r.stopsBehind done = false)
    (budget made : Nat) : r.StopsAt (budget + 1) (made + 1) ↔ next.StopsAt budget made := by
  unfold StopsAt
  rw [breaksAt_succ_iff h hgo, limitedAt_succ_iff h, Machine.steps_of_step (step_eq_ok h).1]

theorem runLength_of_stopsAt_zero {budget : Nat} (h : r.StopsAt budget 0) :
    r.runLength budget = 0 := by
  unfold runLength
  rw [List.range_succ_eq_map, List.find?_cons, decide_eq_true h]
  rfl

theorem runLength_zero (r : Runner) : r.runLength 0 = 0 := by
  by_cases hstop : r.StopsAt 0 0
  · exact runLength_of_stopsAt_zero hstop
  · unfold runLength
    rw [List.range_one, List.find?_cons, decide_eq_false hstop]
    rfl

theorem runLength_of_stopsAt_one {budget : Nat} (hgoes : ¬r.StopsAt (budget + 1) 0)
    (h : r.StopsAt (budget + 1) 1) : r.runLength (budget + 1) = 1 := by
  unfold runLength
  rw [List.range_succ_eq_map, List.find?_cons, decide_eq_false hgoes, List.range_succ_eq_map,
    List.map_cons, List.find?_cons, decide_eq_true h]
  rfl

theorem runLength_step {budget : Nat} (hgoes : ¬r.StopsAt (budget + 1) 0)
    (h : r.step = (.ok done, next)) (hgo : r.stopsBehind done = false) :
    r.runLength (budget + 1) = next.runLength budget + 1 := by
  have hsame : (fun made => decide (r.StopsAt (budget + 1) made)) ∘ Nat.succ =
      fun made => decide (next.StopsAt budget made) := by
    funext made
    exact decide_eq_decide.mpr (stopsAt_succ_iff h hgo budget made)
  unfold runLength
  rw [List.range_succ_eq_map, List.find?_cons, decide_eq_false hgoes, List.find?_map, hsame]
  cases (List.range (budget + 1)).find? fun made => decide (next.StopsAt budget made) with
  | none => rfl
  | some made => rfl

/-- The course of a run is as long as the first reason to stop says. -/
theorem length_course (hpaused : r.paused = false) (budget : Nat) :
    (r.course budget).length = r.runLength budget := by
  induction budget generalizing r with
  | zero => rw [course_zero, runLength_zero, List.length_nil]
  | succ budget ih =>
    by_cases hstops : r.StopsAt (budget + 1) 0
    · rw [runLength_of_stopsAt_zero hstops]
      rcases (stopsAt_zero_iff r budget).mp hstops with hend | hlimit
      · rw [course_of_isFinished hend, List.length_nil]
      · rw [course_of_allowance_eq_zero (allowance_of_limitReached hlimit _), List.length_nil]
    · have hgoes := hstops
      rw [stopsAt_zero_iff, not_or, Bool.not_eq_true, Bool.not_eq_true] at hgoes
      obtain ⟨hend, hlimit⟩ := hgoes
      obtain ⟨done, next, hstep⟩ := exists_step hend
      obtain ⟨-, hstill, -⟩ := step_fields hstep
      rw [course_step hpaused hlimit hstep]
      cases hstop : r.stopsBehind done with
      | true =>
        have hbreaks : r.BreaksAt 1 := (breaksAt_one_iff hstep).mpr hstop
        rw [runLength_of_stopsAt_one hstops (Or.inl hbreaks), if_pos rfl, List.length_singleton]
      | false =>
        rw [runLength_step hstops hstep hstop, if_neg Bool.false_ne_true, List.length_cons,
          ih (hstill.trans hpaused)]

/-- A run of a runner that is not paused never fails. It makes the least number of steps after which
there is a reason to stop, says the reason, and pauses the runner only at a breakpoint. -/
theorem runFor_ends_at_first_reason (r : Runner) (budget : Nat) (hpaused : r.paused = false) :
    ∃ t, r.runFor budget = (.ok (r.haltAfter budget (r.runLength budget)), t) ∧
      t.machine = (r.machine.steps (r.runLength budget)).2 ∧
      t.steps = r.steps + r.runLength budget ∧ t.config = r.config ∧
      (t.paused = true ↔ r.BreaksAt (r.runLength budget)) := by
  obtain ⟨t, hrun, hran⟩ := ran_advance hpaused budget
  have hmachine := hran.machine
  have hsteps := hran.steps
  have hstill := hran.paused
  rw [length_course hpaused] at hrun hmachine hsteps hstill
  refine ⟨t, ?_, ?_, hsteps, hran.config, ?_⟩
  · unfold runFor
    rw [hpaused, if_neg Bool.false_ne_true]
    exact hrun
  · rw [hmachine]
  · rw [hstill, hpaused, haltAfter_eq_breakpoint_iff, or_iff_right Bool.false_ne_true]

end Runner

/-- Writes a number, and ends with a breakpoint. -/
def announcing : Program :=
  .ofInstructions #[⟨.assign, some (.literal 5), false, none⟩, ⟨.putNumber, none, true, none⟩]

/-- A runner whose limit is the length of its program. -/
def announcer (stopAtBreakpoints : Bool) : Runner where
  machine := { program := announcing }
  config := { stopAtBreakpoints, stepLimit := some 2 }

theorem announcer_ends :
    (∃ t, (announcer true).runFor 2 = (.ok (some (.breakpoint ⟨5, [], 2⟩)), t) ∧ t.steps = 2 ∧
      t.paused = true) ∧
    ∃ t, (announcer false).runFor 3 = (.ok (some .finished), t) ∧ t.steps = 2 ∧ ¬t.paused = true := by
  obtain ⟨t, hrun, -, hsteps, -, hpaused⟩ :=
    Runner.runFor_ends_at_first_reason (announcer true) 2 rfl
  obtain ⟨u, hrun', -, hsteps', -, hpaused'⟩ :=
    Runner.runFor_ends_at_first_reason (announcer false) 3 rfl
  have hlength : (announcer true).runLength 2 = 2 := by decide +kernel
  have hlength' : (announcer false).runLength 3 = 2 := by decide +kernel
  have hhalt : (announcer true).haltAfter 2 2 = some (.breakpoint ⟨5, [], 2⟩) := by decide +kernel
  have hhalt' : (announcer false).haltAfter 3 2 = some .finished := by decide +kernel
  rw [hlength] at hrun hsteps hpaused
  rw [hlength'] at hrun' hsteps' hpaused'
  rw [hhalt] at hrun
  rw [hhalt'] at hrun'
  refine ⟨⟨t, hrun, hsteps, hpaused.mpr ?_⟩, u, hrun', hsteps', ?_⟩
  · decide +kernel
  · rw [hpaused']
    decide +kernel

end AccumulatorMachine
