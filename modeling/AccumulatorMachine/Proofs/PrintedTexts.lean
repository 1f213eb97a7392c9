import AccumulatorMachine.Proofs.Layout
import AccumulatorMachine.Proofs.Passages

/-!
Programs that write a text, one quoted character after the other. White space and comments are taken
out of quotes too. The quotes that are left stand side by side, so that the second one counts as the
character between them and what follows is no block any more. Hence a program of this kind writes
its text, or it is rejected.
-/
namespace AccumulatorMachine

/-- The source that assigns each character of a text to the accumulator and writes it. -/
def printingSource (text : String) : String :=
  String.join (text.toList.map fun c => "giv'" ++ c.toString ++ "'oc")

def printingInstructions (c : Char) : List Instruction :=
  [⟨.assign, some (.literal (Input.code c)), false, none⟩, ⟨.putChar, none, false, none⟩]

def printingProgram (text : String) : Program :=
  .ofInstructions (text.toList.flatMap printingInstructions).toArray

/-- The characters between quotes are no white space, and at most one of them is a `#`. -/
def Quotable (chars : List Char) : Prop :=
  (∀ c ∈ chars, Text.isBlank c = false) ∧ chars.count '#' ≤ 1

/-- Characters that are never taken away can be stripped apart from the rest. -/
theorem Source.code_plain_append {plain : List Char} (h : ∀ c ∈ plain, Plain c)
    (rest : List Char) : Source.code false (plain ++ rest) = plain ++ Source.code false rest := by
  have hcount : plain.count '#' = 0 := count_hash_of_plain h
  have hseam : Source.Seam false plain rest := by
    left
    rw [hcount]
    rfl
  have hkept : Source.code false plain = plain := by
    rw [Source.code_of_count_le_one (by omega), List.filter_eq_self]
    intro c hc
    rw [(h c hc).1]
    rfl
  rw [Source.code_append hseam, hkept]

/-- What the source has in front of a character. -/
def openingChars : List Char :=
  ['g', 'i', 'v', '\'']

/-- What the source has behind a character. -/
def closingChars : List Char :=
  ['\'', 'o', 'c']

def printingChars (c : Char) : List Char :=
  openingChars ++ c :: closingChars

theorem plain_openingChars : ∀ c ∈ openingChars, Plain c :=
  plain_of_all (by decide)

theorem plain_closingChars : ∀ c ∈ closingChars, Plain c :=
  plain_of_all (by decide)

theorem toList_printingSource (text : String) :
    (printingSource text).toList = text.toList.flatMap printingChars := by
  have hone (c : Char) : ("giv'" ++ c.toString ++ "'oc").toList = printingChars c := by
    rw [String.toList_append, String.toList_append, Char.toString_eq_singleton,
      String.toList_singleton]
    rfl
  unfold printingSource
  rw [String.toList_join, List.flatMap_map]
  exact List.flatMap_congr fun c _ => hone c

theorem printing_cons (c : Char) (chars : List Char) : (c :: chars).flatMap printingChars =
    openingChars ++ c :: (closingChars ++ chars.flatMap printingChars) := by
  simp [printingChars]

theorem hash_mem_printing_iff (chars : List Char) :
    '#' ∈ chars.flatMap printingChars ↔ '#' ∈ chars := by
  simp [printingChars, openingChars, closingChars]

/-- A character that is no white space stays between its quotes, if it opens no comment. -/
theorem code_printing_kept {c : Char} {chars : List Char} (hblank : Text.isBlank c = false)
    (hseam : c ≠ '#' ∨ '#' ∉ chars) :
    Source.code false ((c :: chars).flatMap printingChars) =
      printingChars c ++ Source.code false (chars.flatMap printingChars) := by
  have hkept : Source.code false (c :: (closingChars ++ chars.flatMap printingChars)) =
      c :: Source.code false (closingChars ++ chars.flatMap printingChars) := by
    by_cases hc : c = '#'
    · subst hc
      have hnone : '#' ∉ closingChars ++ chars.flatMap printingChars := by
        rw [List.mem_append, hash_mem_printing_iff, not_or]
        exact ⟨by decide, hseam.resolve_left (· rfl)⟩
      rw [Source.code_hash_cons, if_neg hnone]
    · rw [Source.code_cons_of_ne hc, hblank, if_neg Bool.false_ne_true]
  rw [printing_cons, Source.code_plain_append plain_openingChars, hkept,
    Source.code_plain_append plain_closingChars]
  simp [printingChars]

/-- White space leaves its quotes empty. -/
theorem code_printing_blank {c : Char} (hblank : Text.isBlank c = true) (chars : List Char) :
    Source.code false ((c :: chars).flatMap printingChars) =
      openingChars ++ (closingChars ++ Source.code false (chars.flatMap printingChars)) := by
  rw [printing_cons, Source.code_plain_append plain_openingChars,
    Source.code_cons_of_ne (Source.ne_hash_of_isBlank hblank), if_pos hblank,
    Source.code_plain_append plain_closingChars]

/-- So does a comment, which goes from one quoted `#` to the next. -/
theorem code_printing_comment {remark : List Char} (h : '#' ∉ remark) (later : List Char) :
    Source.code false (('#' :: (remark ++ '#' :: later)).flatMap printingChars) =
      openingChars ++ (closingChars ++ Source.code false (later.flatMap printingChars)) := by
  have hsplit : closingChars ++ (remark ++ '#' :: later).flatMap printingChars =
      (closingChars ++ (remark.flatMap printingChars ++ openingChars)) ++
        '#' :: (closingChars ++ later.flatMap printingChars) := by
    rw [List.flatMap_append, printing_cons]
    simp
  have hnone : '#' ∉ closingChars ++ (remark.flatMap printingChars ++ openingChars) := by
    rw [List.mem_append, List.mem_append, hash_mem_printing_iff, not_or, not_or]
    exact ⟨by decide, h, by decide⟩
  rw [printing_cons, Source.code_plain_append plain_openingChars, hsplit,
    Source.code_remark hnone, Source.code_plain_append plain_closingChars]

theorem quotable_cons_iff {c : Char} {chars : List Char} : Quotable (c :: chars) ↔
    Text.isBlank c = false ∧ (c ≠ '#' ∨ '#' ∉ chars) ∧ Quotable chars := by
  unfold Quotable
  rw [List.forall_mem_cons]
  by_cases hc : c = '#'
  · subst hc
    rw [List.count_cons_self, ← List.count_eq_zero]
    constructor
    · rintro ⟨⟨hblank, hrest⟩, hcount⟩
      exact ⟨hblank, Or.inr (by omega), hrest, by omega⟩
    · rintro ⟨hblank, hseam, hrest, -⟩
      have hzero := hseam.resolve_left (· rfl)
      exact ⟨⟨hblank, hrest⟩, by omega⟩
  · rw [List.count_cons_of_ne hc]
    simp [hc, and_assoc]

theorem code_of_quotable {chars : List Char} (h : Quotable chars) :
    Source.code false (chars.flatMap printingChars) = chars.flatMap printingChars := by
  induction chars with
  | nil => rfl
  | cons c chars ih =>
    obtain ⟨hblank, hseam, hrest⟩ := quotable_cons_iff.mp h
    rw [code_printing_kept hblank hseam, ih hrest]
    rfl

/-- Else some quotes are left empty, the first ones of them behind characters that stay. -/
theorem exists_code_of_not_quotable {chars : List Char} (h : ¬Quotable chars) :
    ∃ front rest : List Char, Source.code false (chars.flatMap printingChars) =
      front.flatMap printingChars ++ (openingChars ++ (closingChars ++ rest)) := by
  induction chars with
  | nil => exact absurd ⟨by simp, by simp⟩ h
  | cons c chars ih =>
    by_cases hblank : Text.isBlank c = true
    · exact ⟨[], _, code_printing_blank hblank chars⟩
    by_cases hcomment : c = '#' ∧ '#' ∈ chars
    · obtain ⟨rfl, hmem⟩ := hcomment
      obtain ⟨remark, later, rfl, hno⟩ := List.eq_append_cons_of_mem hmem
      exact ⟨[], _, code_printing_comment hno later⟩
    have hplain : Text.isBlank c = false := Bool.eq_false_iff.mpr hblank
    have hseam : c ≠ '#' ∨ '#' ∉ chars := not_and_or.mp hcomment
    have hrest : ¬Quotable chars := by
      intro hchars
      exact h (quotable_cons_iff.mpr ⟨hplain, hseam, hchars⟩)
    obtain ⟨front, rest, hcode⟩ := ih hrest
    refine ⟨c :: front, rest, ?_⟩
    rw [code_printing_kept hplain hseam, hcode, List.flatMap_cons, List.append_assoc]

/-- Assigns a quoted character, whatever closes the quotes. -/
def quotedAssign (c closing : Char) : BlockSpelling :=
  .action "giv" .assign (by decide) (some (.quoted c closing)) rfl false false

def printingSpelling (chars : List Char) : Spelling :=
  chars.flatMap fun c =>
    [quotedAssign c '\'', .action "oc" .putChar (by decide) none rfl false false]

theorem text_printingSpelling (chars : List Char) :
    (printingSpelling chars).text = chars.flatMap printingChars := by
  unfold Spelling.text printingSpelling
  rw [List.flatMap_assoc]
  rfl

theorem isAction_printingSpelling (chars : List Char) :
    ∀ b ∈ printingSpelling chars, b.isAction = true := by
  intro b hb
  obtain ⟨c, -, hb⟩ := List.mem_flatMap.mp hb
  rcases List.mem_pair.mp hb with rfl | rfl
  · rfl
  · rfl

theorem becomes_printing (names : List (Option String)) (chars : List Char) (position : Nat) :
    List.Forall₂ (Becomes names) ((printingSpelling chars).blocks position)
      (chars.flatMap printingInstructions) := by
  induction chars generalizing position with
  | nil => exact .nil
  | cons c chars ih =>
    have hassign : Becomes names ((quotedAssign c '\'').block position)
        ⟨.assign, some (.literal (Input.code c)), false, none⟩ :=
      .applied .assign false position (.literal _)
    exact .cons hassign (.cons (.bare .putChar false _) (ih _))

theorem assemble_of_quotable {text : String} (h : Quotable text.toList) :
    assemble (printingSource text) = .ok (printingProgram text) := by
  have hcode : Source.strip (printingSource text) = (printingSpelling text.toList).text := by
    rw [Source.strip_eq_code, toList_printingSource, code_of_quotable h, text_printingSpelling]
  have hall := becomes_printing (printingProgram text).tagNames text.toList 0
  have hnames : (printingProgram text).tagNames =
      Block.tagNames ((printingSpelling text.toList).blocks 0) := tagName_of_forall₂_becomes hall
  have hdistinct : DistinctNames (printingProgram text).tagNames := by
    rw [hnames]
    exact Spelling.distinctNames (isAction_printingSpelling _) 0
  exact assemble_eq_ok_iff.mpr ⟨_, hcode, hall, TagTable.indexes_ofInstructions _ hdistinct⟩

theorem no_mnemonic_starts_with_c :
    ∀ entry ∈ Opcode.mnemonics.entries, entry.1.toList.head? ≠ some 'c' := by
  decide

/-- Of empty quotes and the letters behind them, the second quote and the first letter are taken for
the inside of quotes and their end. The other letter starts no block. -/
theorem assemble_of_not_quotable {text : String} (h : ¬Quotable text.toList) :
    ∃ named position,
      assemble (printingSource text) = .error (.malformed (.unknownMnemonic named position)) := by
  obtain ⟨front, rest, hcode⟩ := exists_code_of_not_quotable h
  let spelling : Spelling := printingSpelling front ++ [quotedAssign '\'' 'o']
  have htext : Source.strip (printingSource text) = spelling.text ++ 'c' :: rest := by
    have hsplit : spelling.text =
        front.flatMap printingChars ++ (quotedAssign '\'' 'o').text := by
      rw [← text_printingSpelling, ← List.flatMap_singleton BlockSpelling.text]
      exact List.flatMap_append
    rw [Source.strip_eq_code, toList_printingSource, hcode, hsplit, List.append_assoc]
    rfl
  have hquiet : Quiet ('c' :: rest) := by
    intro c hc
    obtain rfl : 'c' = c := Option.some.inj hc
    decide
  have hactions : ∀ b ∈ spelling, b.isAction = true := by
    intro b hb
    rcases List.mem_append.mp hb with hb | hb
    · exact isAction_printingSpelling front b hb
    · rw [List.mem_singleton.mp hb]
      rfl
  obtain ⟨t, hunknown⟩ := Scan.readBlock_unknown ([] ++ spelling.text) (by decide)
    no_mnemonic_starts_with_c rest
  have hread := Scan.readMany_append [] spelling hquiet
  rw [Scan.readMany_of_error (by simp) hunknown, ← htext, List.append_nil] at hread
  exact ⟨_, _, assemble_malformed hread (Spelling.distinctNames hactions 0)⟩

/-- The instruction that a program goes on with, and those behind it. -/
theorem Program.get?_of_drop {p : Program} {pc : Nat} {i : Instruction} {rest : List Instruction}
    (h : p.instructions.toList.drop pc = i :: rest) :
    p.get? pc = some i ∧ p.instructions.toList.drop (pc + 1) = rest := by
  constructor
  · have hhead : (p.instructions.toList.drop pc)[0]? = some i := by rw [h, List.getElem?_cons_zero]
    rwa [List.getElem?_drop, Array.getElem?_toList] at hhead
  · rw [← List.tail_drop, h, List.tail_cons]

/-- A program that goes on with the instructions for a text writes it and goes behind them. -/
theorem printing_passes {p : Program} {chars : List Char} {pc : Nat}
    (h : p.instructions.toList.drop pc = chars.flatMap printingInstructions)
    (accumulator : Int64) (stack : List Int64) (input : Input) (output : Output) :
    ∃ last, Machine.Passes ⟨p, ⟨accumulator, stack, pc⟩, input, output⟩ (2 * chars.length)
      ⟨p, ⟨last, stack, pc + 2 * chars.length⟩, input,
        output.put (chars.map (.char ∘ Input.code))⟩ := by
  induction chars generalizing pc accumulator output with
  | nil => exact ⟨accumulator, .refl _⟩
  | cons c chars ih =>
    obtain ⟨hassign, hbehind⟩ := Program.get?_of_drop h
    obtain ⟨hput, hrest⟩ := Program.get?_of_drop hbehind
    have hassigned : Machine.Passes ⟨p, ⟨accumulator, stack, pc⟩, input, output⟩ 1
        ⟨p, ⟨Input.code c, stack, pc + 1⟩, input, output⟩ :=
      Machine.passes_of_effect [] hassign rfl
    have hwritten : Machine.Passes ⟨p, ⟨Input.code c, stack, pc + 1⟩, input, output⟩ 1
        ⟨p, ⟨Input.code c, stack, pc + 1 + 1⟩, input, output.put [.char (Input.code c)]⟩ :=
      Machine.passes_of_effect [.char (Input.code c)] hput rfl
    obtain ⟨last, hlater⟩ := ih hrest (Input.code c) (output.put [.char (Input.code c)])
    have hall := (hassigned.trans hwritten).trans hlater
    have hcount : 2 * (c :: chars).length = 1 + 1 + 2 * chars.length := by
      rw [List.length_cons]
      omega
    have hpc : pc + (1 + 1 + 2 * chars.length) = pc + 1 + 1 + 2 * chars.length := by omega
    rw [Output.put_put] at hall
    rw [hcount, hpc]
    exact ⟨last, hall⟩

theorem length_printing (chars : List Char) :
    (chars.flatMap printingInstructions).length = 2 * chars.length := by
  induction chars with
  | nil => rfl
  | cons c chars ih =>
    rw [List.flatMap_cons, List.length_append, ih, List.length_cons]
    change 2 + 2 * chars.length = 2 * (chars.length + 1)
    omega

theorem printingProgram_passes (text : String) (input : Input) :
    ∃ final, Machine.Passes { program := printingProgram text, input } (2 * text.length) final ∧
      final.atEnd = true ∧ final.output.contents = text := by
  have hfirst : (printingProgram text).instructions.toList.drop 0 =
      text.toList.flatMap printingInstructions := rfl
  have hsize : (printingProgram text).size = 2 * text.toList.length := length_printing text.toList
  obtain ⟨last, hpasses⟩ := printing_passes hfirst 0 [] input {}
  rw [← String.length_toList]
  refine ⟨_, hpasses, ?_, ?_⟩
  · unfold Machine.atEnd State.atEnd
    rw [decide_eq_true_iff, hsize]
    exact Nat.le_add_left _ _
  · rw [Output.contents_put_codes, String.ofList_toList]
    exact String.empty_append

/-- A program that writes each character of a text in turn is assembled if there is no white space
and at most one `#` in the text, and else it is rejected for an unknown mnemonic. Once assembled it
writes the text and nothing else, whatever its input, in two steps for each character and without a
fault. -/
theorem printing_writes_text_or_is_rejected (text : String) :
    ((∃ p, assemble (printingSource text) = .ok p) ↔
      (∀ c ∈ text.toList, Text.isBlank c = false) ∧ text.toList.count '#' ≤ 1) ∧
    (∀ p, assemble (printingSource text) = .ok p → p = printingProgram text ∧
      ∀ input, ∃ final, Machine.Passes { program := p, input } (2 * text.length) final ∧
        final.atEnd = true ∧ final.output.contents = text) ∧
    ∀ e, assemble (printingSource text) = .error e →
      ∃ named position, e = .malformed (.unknownMnemonic named position) := by
  by_cases h : Quotable text.toList
  · have hok := assemble_of_quotable h
    refine ⟨⟨fun _ => h, fun _ => ⟨_, hok⟩⟩, fun p hp => ?_, fun e he => ?_⟩
    · obtain rfl := Except.ok.inj (hok.symm.trans hp)
      exact ⟨rfl, printingProgram_passes text⟩
    · cases hok.symm.trans he
  · obtain ⟨named, position, herror⟩ := assemble_of_not_quotable h
    refine ⟨⟨?_, fun hquotable => absurd hquotable h⟩, fun p hp => ?_, fun e he => ?_⟩
    · rintro ⟨p, hp⟩
      cases herror.symm.trans hp
    · cases herror.symm.trans hp
    · exact ⟨named, position, Except.error.inj (he.symm.trans herror)⟩

theorem printing_marks_and_comment :
    (∃ p, assemble (printingSource "':#;*-") = .ok p ∧
      ∀ input, ∃ final, Machine.Passes { program := p, input } 12 final ∧
        final.atEnd = true ∧ final.output.contents = "':#;*-") ∧
    ∀ text ∈ ["#a#", "a b", "\u2003"], ∃ named position,
      assemble (printingSource text) = .error (.malformed (.unknownMnemonic named position)) := by
  constructor
  · obtain ⟨hiff, hruns, -⟩ := printing_writes_text_or_is_rejected "':#;*-"
    have hclean : ("':#;*-".toList.all fun c => !Text.isBlank c) = true := by decide
    have hblank : ∀ c ∈ "':#;*-".toList, Text.isBlank c = false := by
      intro c hc
      simpa using List.all_eq_true.mp hclean c hc
    obtain ⟨p, hp⟩ := hiff.mpr ⟨hblank, by decide⟩
    exact ⟨p, hp, (hruns p hp).2⟩
  · intro text htext
    obtain ⟨hiff, -, herrors⟩ := printing_writes_text_or_is_rejected text
    have hno : (text.toList.any Text.isBlank || decide (1 < text.toList.count '#')) = true := by
      have hall : (["#a#", "a b", "\u2003"].all fun text =>
          text.toList.any Text.isBlank || decide (1 < text.toList.count '#')) = true := by decide
      exact List.all_eq_true.mp hall text htext
    cases hp : assemble (printingSource text) with
    | ok p =>
      obtain ⟨hblank, hcount⟩ := hiff.mp ⟨p, hp⟩
      rw [Bool.or_eq_true, List.any_eq_true, decide_eq_true_iff] at hno
      rcases hno with ⟨c, hc, hyes⟩ | hmany
      · exact absurd hyes (by rw [hblank c hc]; exact Bool.false_ne_true)
      · omega
    | error e =>
      obtain ⟨named, position, rfl⟩ := herrors e hp
      exact ⟨named, position, rfl⟩

end AccumulatorMachine
