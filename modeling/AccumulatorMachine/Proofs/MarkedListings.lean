import AccumulatorMachine.Proofs.CanonicalSource
import AccumulatorMachine.Proofs.Debugging

/-!
The listing that a debugger shows. Its lines are those of the program's listing, behind a margin, and a
last line once the program is finished. The mark in the margin is at the instruction that the next step
executes. That the lines can be told apart rests on the program being assembled: no name in it has a line
feed.
-/
namespace AccumulatorMachine

/-- A text in pieces, cut at its line feeds. -/
def Text.pieces (text : String) : List String :=
  (text.toList.splitOn '\n').map String.ofList

/-- Lines that are ended by line feeds are the pieces of their text, with nothing behind the last. -/
theorem Text.pieces_join {lines : List String} (h : ∀ line ∈ lines, '\n' ∉ line.toList) :
    Text.pieces (String.join (lines.map (· ++ "\n"))) = lines ++ [""] := by
  have hchars : (String.join (lines.map (· ++ "\n"))).toList =
      lines.flatMap fun line => line.toList ++ ['\n'] := by
    rw [String.toList_join, List.flatMap_map]
    simp only [String.toList_append, String.reduceToList]
  unfold Text.pieces List.splitOn
  rw [hchars]
  clear hchars
  induction lines with
  | nil => rfl
  | cons line lines ih =>
    have hline : ∀ c ∈ line.toList, (c == '\n') = false := by
      intro c hc
      rw [beq_eq_false_iff_ne]
      rintro rfl
      exact h line List.mem_cons_self hc
    have hlater := ih fun other hother => h other (List.mem_cons_of_mem _ hother)
    rw [List.flatMap_cons, List.append_assoc, List.singleton_append,
      List.splitOnP_append_cons_of_forall_mem hline _ (beq_self_eq_true _), List.map_cons, hlater,
      String.ofList_toList, List.cons_append]

/-- The number on a line of a listing with a margin. -/
def lineNumber? (line : String) : Option Nat :=
  Decimal.nat? (((line.toList.drop 3).dropWhile (· == ' ')).takeWhile Char.isDigit)

namespace ListingEntry

variable {entry : ListingEntry} {margin : String}

theorem exists_line_eq (entry : ListingEntry) : ∃ blanks rest,
    entry.line.toList = List.replicate blanks ' ' ++ (Decimal.digits entry.index ++ ' ' :: rest) := by
  have hnumber : (padLeft 4 (Decimal.ofNat entry.index) ++ "  ").toList =
      List.replicate (4 - (Decimal.ofNat entry.index).length) ' ' ++
        (Decimal.digits entry.index ++ [' ', ' ']) := by
    simp [padLeft, Decimal.ofNat]
  unfold line
  dsimp only
  refine ⟨4 - (Decimal.ofNat entry.index).length, ?_⟩
  cases entry.target with
  | none =>
    refine ⟨' ' :: entry.source.toList, ?_⟩
    rw [String.toList_append, hnumber]
    simp
  | some target =>
    refine ⟨' ' :: (padRight 16 entry.source ++ " -> " ++ Decimal.ofNat target).toList, ?_⟩
    rw [String.toList_append, String.toList_append, String.toList_append, hnumber]
    simp

/-- Behind the margin stands the number of the entry. -/
theorem lineNumber?_line (hmargin : margin.toList.length = 3) (entry : ListingEntry) :
    lineNumber? (margin ++ entry.line) = some entry.index := by
  obtain ⟨blanks, rest, hline⟩ := entry.exists_line_eq
  have hblanks : ∀ c ∈ List.replicate blanks ' ', (c == ' ') = true := by
    intro c hc
    rw [List.eq_of_mem_replicate hc]
    rfl
  have hdigits : ∀ c ∈ Decimal.digits entry.index, c.isDigit = true := fun c hc =>
    Decimal.isDigit_of_mem_digits hc
  have hhead : (Decimal.digits entry.index ++ ' ' :: rest).dropWhile (· == ' ') =
      Decimal.digits entry.index ++ ' ' :: rest := by
    obtain ⟨first, later, hfirst⟩ := List.exists_cons_of_ne_nil (Decimal.digits_ne_nil entry.index)
    have hdigit : first.isDigit = true := hdigits first (hfirst ▸ List.mem_cons_self)
    have hne : (first == ' ') = false := by
      rw [beq_eq_false_iff_ne]
      rintro rfl
      cases hdigit
    rw [hfirst, List.cons_append, List.dropWhile_cons, hne, if_neg Bool.false_ne_true]
  unfold lineNumber?
  rw [String.toList_append, ← hmargin, List.drop_left, hline, List.dropWhile_append_of_pos hblanks,
    hhead, takeWhile_append_exact hdigits (by simp), Decimal.nat?_digits]

/-- A line has a line feed only where the source text has one. -/
theorem not_mem_line (h : '\n' ∉ entry.source.toList) : '\n' ∉ entry.line.toList := by
  have hnumber (n : Nat) : '\n' ∉ Decimal.digits n := by
    intro hmem
    cases Decimal.isDigit_of_mem_digits hmem
  unfold line padLeft padRight Decimal.ofNat
  cases entry.target with
  | none => simp [hnumber, h]
  | some target => simp [hnumber, h]

end ListingEntry

namespace Listing

/-- What stands before a line of a listing with a mark at `pc`. -/
def margin (index pc : Nat) : String :=
  if index = pc then "=> " else "   "

theorem length_margin (index pc : Nat) : (margin index pc).toList.length = 3 := by
  unfold margin
  split
  · rfl
  · rfl

/-- A margin has either the mark or blanks. -/
theorem isPrefix_margin (index pc : Nat) (rest : String) :
    ("=>".toList <+: (margin index pc ++ rest).toList ↔ index = pc) ∧
    ("  ".toList <+: (margin index pc ++ rest).toList ↔ index ≠ pc) := by
  unfold margin
  rw [String.toList_append]
  by_cases h : index = pc
  · have hmark : "=>".toList <+: "=> ".toList ++ rest.toList := ⟨' ' :: rest.toList, rfl⟩
    have hblanks : ¬"  ".toList <+: "=> ".toList ++ rest.toList := fun hprefix =>
      absurd (List.cons_prefix_cons.mp hprefix).1 (by decide)
    rw [if_pos h]
    exact ⟨iff_of_true hmark h, iff_of_false hblanks (not_not_intro h)⟩
  · have hmark : ¬"=>".toList <+: "   ".toList ++ rest.toList := fun hprefix =>
      absurd (List.cons_prefix_cons.mp hprefix).1 (by decide)
    have hblanks : "  ".toList <+: "   ".toList ++ rest.toList := ⟨' ' :: rest.toList, rfl⟩
    rw [if_neg h]
    exact ⟨iff_of_false hmark h, iff_of_true hblanks h⟩

/-- The lines of the entries, behind their margins. -/
def entryLines (listing : Listing) (pc : Nat) : List String :=
  listing.entries.map fun entry => margin entry.index pc ++ entry.line

/-- The lines of the entries, and the line at the end. -/
def markedLines (listing : Listing) (pc : Nat) : List String :=
  listing.entryLines pc ++ if listing.entries.length ≤ pc then ["=> <end>"] else []

theorem marked_eq_join (listing : Listing) (pc : Nat) :
    listing.marked pc = String.join ((listing.markedLines pc).map (· ++ "\n")) := by
  have hend : (if listing.entries.length ≤ pc then "=> <end>\n" else "") =
      String.join ((if listing.entries.length ≤ pc then ["=> <end>"] else []).map (· ++ "\n")) := by
    split
    · decide
    · rfl
  unfold marked markedLines entryLines
  rw [List.map_append, String.join_append, List.map_map, hend]
  rfl

section Programs

variable {program : Program} {pc index : Nat} {line : String}

theorem length_entries (program : Program) : (ofProgram program).entries.length = program.size := by
  unfold ofProgram
  rw [List.length_mapIdx]
  rfl

theorem length_entryLines (program : Program) (pc : Nat) :
    ((ofProgram program).entryLines pc).length = program.size :=
  (List.length_map _).trans (length_entries program)

theorem index_of_getElem? {entry : ListingEntry}
    (h : (ofProgram program).entries[index]? = some entry) : entry.index = index := by
  unfold ofProgram at h
  rw [List.getElem?_mapIdx] at h
  obtain ⟨i, -, rfl⟩ := Option.map_eq_some_iff.mp h
  rfl

theorem indices_entries (program : Program) :
    (ofProgram program).entries.map ListingEntry.index = List.range program.size := by
  apply List.ext_getElem
  · rw [List.length_map, length_entries, List.length_range]
  · intro index hleft hright
    rw [List.length_map] at hleft
    rw [List.getElem_map, List.getElem_range]
    exact index_of_getElem? (List.getElem?_eq_getElem hleft)

/-- All lines have their margins, the one at the end like the others. -/
theorem getElem?_markedLines (hpc : pc ≤ program.size)
    (h : ((ofProgram program).markedLines pc)[index]? = some line) :
    ∃ rest, line = margin index pc ++ rest := by
  have hlength := length_entryLines program pc
  unfold markedLines at h
  rcases Nat.lt_or_ge index program.size with hlt | hge
  · rw [List.getElem?_append_left (by omega), entryLines, List.getElem?_map] at h
    obtain ⟨entry, hentry, rfl⟩ := Option.map_eq_some_iff.mp h
    exact ⟨entry.line, by rw [index_of_getElem? hentry]⟩
  · rw [List.getElem?_append_right (by omega), hlength, length_entries] at h
    split at h
    · obtain ⟨hindex, hline⟩ := List.getElem?_eq_some_iff.mp h
      rw [List.length_singleton] at hindex
      obtain rfl : index = pc := by omega
      refine ⟨"<end>", ?_⟩
      rw [← hline, List.getElem_singleton, margin, if_pos rfl]
      decide
    · cases h

/-- The lines are numbered from zero, but for the one at the end. -/
theorem numbers_markedLines (program : Program) (pc : Nat) :
    ((ofProgram program).markedLines pc).map lineNumber? =
      (List.range program.size).map some ++ if program.size ≤ pc then [none] else [] := by
  have hentries : ((ofProgram program).entryLines pc).map lineNumber? =
      (List.range program.size).map some := by
    unfold entryLines
    rw [← indices_entries, List.map_map, List.map_map]
    apply List.map_congr_left
    intro entry _
    exact entry.lineNumber?_line (length_margin entry.index pc)
  unfold markedLines
  rw [List.map_append, hentries, length_entries]
  split
  · rfl
  · rfl

theorem lineNumber?_of_getElem? (hpc : pc < program.size)
    (h : ((ofProgram program).markedLines pc)[index]? = some line) :
    lineNumber? line = some index := by
  have hnumber : (((ofProgram program).markedLines pc).map lineNumber?)[index]? =
      some (lineNumber? line) := by
    rw [List.getElem?_map, h]
    rfl
  rw [numbers_markedLines, if_neg (Nat.not_le_of_lt hpc), List.append_nil, List.getElem?_map] at hnumber
  obtain ⟨number, hrange, hsome⟩ := Option.map_eq_some_iff.mp hnumber
  obtain ⟨_, heq⟩ := List.getElem?_eq_some_iff.mp hrange
  rw [List.getElem_range] at heq
  rw [← hsome, heq]

theorem lt_length_markedLines (hpc : pc ≤ program.size) :
    pc < ((ofProgram program).markedLines pc).length := by
  unfold markedLines
  rw [List.length_append, length_entryLines, length_entries]
  split
  · rw [List.length_singleton]
    omega
  · rw [List.length_nil]
    omega

theorem getElem?_markedLines_size (program : Program) (pc : Nat) :
    ((ofProgram program).markedLines pc)[program.size]? =
      if program.size ≤ pc then some "=> <end>" else none := by
  have hlength := length_entryLines program pc
  unfold markedLines
  rw [List.getElem?_append_right (Nat.le_of_eq hlength), hlength, length_entries, Nat.sub_self]
  split
  · rfl
  · rfl

/-- Without their margins the lines are those of the plain listing. -/
theorem text_eq_join (program : Program) (pc : Nat) :
    (ofProgram program).text =
      String.join ((((ofProgram program).markedLines pc).take program.size).map fun line =>
        String.ofList (line.toList.drop 3) ++ "\n") := by
  have hline (entry : ListingEntry) :
      String.ofList ((margin entry.index pc ++ entry.line).toList.drop 3) = entry.line := by
    rw [String.toList_append, ← length_margin entry.index pc, List.drop_left, String.ofList_toList]
  have hentries : ((ofProgram program).markedLines pc).take program.size =
      (ofProgram program).entryLines pc := List.take_left' (length_entryLines program pc)
  rw [hentries, entryLines, List.map_map]
  unfold Listing.text
  congr 1
  apply List.map_congr_left
  intro entry _
  rw [Function.comp_apply, hline]

/-- No line of a listing that shows an assembled program goes on beyond its end. -/
theorem lineFeed_not_mem_markedLines (wf : program.WellFormed) (pc : Nat) :
    ∀ line ∈ (ofProgram program).markedLines pc, '\n' ∉ line.toList := by
  have hmargin (index : Nat) : '\n' ∉ (margin index pc).toList := by
    unfold margin
    split
    · decide
    · decide
  intro line hline
  unfold markedLines entryLines at hline
  rcases List.mem_append.mp hline with hentry | hend
  · obtain ⟨entry, hmem, rfl⟩ := List.mem_map.mp hentry
    obtain ⟨index, hindex, rfl⟩ := List.mem_mapIdx.mp hmem
    have hsource : '\n' ∉ (ListingEntry.ofInstruction index
        (program.instructions.toList[index])).source.toList := by
      intro hmem
      have hblank := wf.not_blank_text (List.getElem_mem hindex) '\n' hmem
      exact absurd hblank (by decide)
    rw [String.toList_append, List.mem_append, not_or]
    exact ⟨hmargin _, ListingEntry.not_mem_line hsource⟩
  · split at hend
    · obtain rfl := List.mem_singleton.mp hend
      decide
    · cases hend

end Programs

end Listing

namespace Debugger

/-- A debugger that a session on the program can lead to. -/
inductive Reached (program : Program) (input : String) (maxSteps : Nat) : Debugger → Prop
  | start : Reached program input maxSteps (start program (.ofString input) maxSteps)
  | answer {d next : Debugger} {line text : String} (hd : Reached program input maxSteps d)
    (hanswer : d.answer line = .more text next) : Reached program input maxSteps next

/-- The debugger answers a line by executing the steps. -/
def Executes (d : Debugger) (line : String) (executed : List Step) : Prop :=
  ∃ text next after, d.answer line = .more text next ∧
    d.runner.machine.steps executed.length = (executed, after) ∧
    next.runner.machine = after.drained ∧
    next.runner.steps = d.runner.steps + executed.length

/-- Lines that show where the debugger is in the program. -/
structure Shows (d : Debugger) (program : Program) (lines : List String) : Prop where
  /-- There is a line for each instruction, and one without a number behind them at the end only. -/
  numbers : lines.map lineNumber? =
    (List.range program.size).map some ++ if d.runner.isFinished then [none] else []
  last : lines[program.size]? = if d.runner.isFinished then some "=> <end>" else none
  mark : ∃ marked < lines.length, ∀ index line, lines[index]? = some line →
    ("=>".toList <+: line.toList ↔ index = marked) ∧
    ("  ".toList <+: line.toList ↔ index ≠ marked)
  /-- The line with the mark is the one with the number of the instruction that is executed next. -/
  next : d.runner.isFinished = false → ∀ command count,
    DebugCommand.ofLine command = .ok (.step (count + 1)) →
    ∃ done later, d.Executes command (done :: later) ∧
      ∀ line ∈ lines, "=>".toList <+: line.toList ↔ lineNumber? line = some done.index
  dump : CommandLine.dumpText program .text =
    String.join ((lines.take program.size).map fun line =>
      String.ofList (line.toList.drop 3) ++ "\n")

variable {program : Program} {input : String} {maxSteps : Nat} {d : Debugger} {line : String}

theorem Reached.exists_atPrompt (h : Reached program input maxSteps d) :
    ∃ t, AtPrompt (.fresh program input) maxSteps d t := by
  induction h with
  | start => exact ⟨{}, atPrompt_start program input maxSteps⟩
  | @answer d next line text _ hanswer ih =>
    obtain ⟨t, hprompt⟩ := ih
    rcases hprompt.answer line with ⟨-, hfinish⟩ | ⟨text', next', t', hmore, -, hnext⟩
    · cases hanswer.symm.trans hfinish
    · obtain ⟨-, rfl⟩ := Reply.more.inj (hanswer.symm.trans hmore)
      exact ⟨t', hnext⟩

theorem Reached.inBounds (h : Reached program input maxSteps d) :
    d.runner.machine.InBounds program := by
  obtain ⟨t, hprompt⟩ := h.exists_atPrompt
  have hfresh : (Machine.fresh program input).InBounds program := ⟨rfl, Nat.zero_le _⟩
  have hreached := hfresh.steps t.steps
  rw [hprompt.machine]
  exact ⟨hreached.program_eq, hreached.pc_le⟩

/-- The command to step executes the next steps of the machine. -/
theorem executes_step {count : Nat} (d : Debugger)
    (hline : DebugCommand.ofLine line = .ok (.step count)) :
    d.Executes line (d.runner.machine.steps count).1 := by
  obtain ⟨after, hafter, hran⟩ := stepMany_eq d.runner "" count
  have hperform : d.perform (.step count) = .ok
      (breakpointLines (d.runner.machine.steps count).1 ++ (drain after).1 ++
        statusLine (drain after).2, { d with runner := (drain after).2 }) := by
    rw [perform, hafter, String.empty_append]
  exact ⟨_, _, after.machine, answer_of_perform hline (by simp) hperform, hran.machine, rfl,
    hran.steps⟩

/-- The lines of the listing show where the debugger is. -/
theorem shows_markedLines (h : d.runner.machine.InBounds program) :
    d.Shows program ((Listing.ofProgram program).markedLines d.runner.state.pc) := by
  have hpc : d.runner.state.pc ≤ program.size := h.pc_le
  have hend : d.runner.isFinished = true ↔ d.runner.state.pc = program.size := h.atEnd_iff
  have hle : program.size ≤ d.runner.state.pc ↔ d.runner.isFinished = true := by
    rw [hend]
    omega
  refine ⟨?_, ?_, ⟨d.runner.state.pc, Listing.lt_length_markedLines hpc, ?_⟩, ?_,
    Listing.text_eq_join program d.runner.state.pc⟩
  · simp only [Listing.numbers_markedLines, hle]
  · simp only [Listing.getElem?_markedLines_size, hle]
  · intro index line hline
    obtain ⟨rest, rfl⟩ := Listing.getElem?_markedLines hpc hline
    exact Listing.isPrefix_margin index d.runner.state.pc rest
  · intro hgoes command count hcommand
    have hlt : d.runner.state.pc < program.size := by
      refine Nat.lt_of_le_of_ne hpc fun heq => ?_
      cases hgoes.symm.trans (hend.mpr heq)
    obtain ⟨done, next, hstep⟩ := Machine.exists_step hgoes
    have hexecutes := d.executes_step hcommand
    rw [Machine.steps_of_step hstep] at hexecutes
    refine ⟨done, (next.steps count).1, hexecutes, fun line hline => ?_⟩
    obtain ⟨index, hindex⟩ := List.mem_iff_getElem?.mp hline
    rw [Listing.lineNumber?_of_getElem? hlt hindex, Option.some.injEq,
      Machine.index_step hstep]
    obtain ⟨rest, rfl⟩ := Listing.getElem?_markedLines hpc hindex
    exact (Listing.isPrefix_margin index d.runner.state.pc rest).1

/-- The debugger answers a request to list with the lines of the program, a mark in front of the one
that the next step executes. Without what stands before them the lines are the dump of the program. -/
theorem list_marks_next {source : String} (hprogram : assemble source = .ok program)
    (hreached : Reached program input maxSteps d) (hline : DebugCommand.ofLine line = .ok .list) :
    ∃ text lines, d.answer line = .more text d ∧ Text.pieces text = lines ++ [""] ∧
      d.Shows program lines := by
  obtain ⟨t, hprompt⟩ := hreached.exists_atPrompt
  have hlisting : d.listing = .ofProgram program := hprompt.listing
  have hlines := Listing.lineFeed_not_mem_markedLines (wellFormed_of_assemble hprogram)
    d.runner.state.pc
  refine ⟨d.listing.marked d.runner.state.pc, _, answer_of_perform hline (by simp) rfl, ?_,
    shows_markedLines hreached.inBounds⟩
  rw [hlisting, Listing.marked_eq_join, Text.pieces_join hlines]

/-- Branches back to its tag when the accumulator is zero. -/
def branching : Program :=
  .ofInstructions #[⟨.assign, some (.register .input), false, none⟩, .tag "b",
    ⟨.jumpIfZero, some (.tag "b" 1), true, none⟩]

def branchingText : String :=
  "      0  givI\n=>    1  :b:\n      2  jez:b:*          -> 1\n"

theorem list_marks_branching :
    ∃ d lines, assemble "givI :b: jez:b:*" = .ok branching ∧ Reached branching "" 9 d ∧
      d.answer "l" = .more branchingText d ∧ Text.pieces branchingText = lines ++ [""] ∧
      d.Shows branching lines := by
  let fresh : Debugger := start branching (.ofString "") 9
  have hsource : assemble "givI :b: jez:b:*" = .ok branching := by decide +kernel
  have hstep : DebugCommand.ofLine "s 3" = .ok (.step 3) := by decide +kernel
  have hlist : DebugCommand.ofLine "l" = .ok .list := by decide +kernel
  have hback : (fresh.runner.machine.steps (fresh.runner.machine.steps 3).1.length).2.state.pc = 1 := by
    decide +kernel
  have hmarked : (Listing.ofProgram branching).marked 1 = branchingText := by decide +kernel
  obtain ⟨_, d, after, hthird, hsteps, hmachine, -⟩ := fresh.executes_step hstep
  have hreached : Reached branching "" 9 d := .answer .start hthird
  obtain ⟨t, hprompt⟩ := hreached.exists_atPrompt
  have hlisting : d.listing = .ofProgram branching := hprompt.listing
  have hpc : d.runner.state.pc = 1 := by
    rw [hsteps] at hback
    unfold Runner.state
    rw [hmachine]
    exact hback
  obtain ⟨text, lines, hanswer, hpieces, hshows⟩ := list_marks_next hsource hreached hlist
  have hperform : d.answer "l" = .more (d.listing.marked d.runner.state.pc) d :=
    answer_of_perform hlist (by simp) rfl
  obtain ⟨rfl, -⟩ := Reply.more.inj (hanswer.symm.trans hperform)
  rw [hlisting, hpc, hmarked] at hanswer hpieces
  exact ⟨d, lines, hsource, hreached, hanswer, hpieces, hshows⟩

end Debugger

end AccumulatorMachine
