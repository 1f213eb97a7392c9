import AccumulatorMachine.CommandLine.Job
import AccumulatorMachine.Proofs.Linking
import AccumulatorMachine.Proofs.Stripping

/-!
The source text of a program, and which programs it gives back. A program is well formed when its
parts fit together as assembly makes them fit. The source of a well-formed program assembles to that
program, with any white space between its instructions; and assembly makes no other programs.
-/
namespace AccumulatorMachine

/-- Opcode, operand, breakpoint and tag name fit together. -/
def Instruction.Fits (i : Instruction) : Prop :=
  (i.isTag = false → i.tagName = none ∧ i.operand.isSome = i.opcode.takesOperand) ∧
  (i.isTag = true → i.tagName.isSome = true ∧ i.operand = none ∧ i.breakpoint = false)

def Operand.name? : Operand → Option String
  | .tag name _ => some name
  | _ => none

/-- The characters of the names that an instruction defines or refers to. -/
def Instruction.nameChars (i : Instruction) : List Char :=
  (i.tagName.getD "").toList ++ ((i.operand.bind Operand.name?).getD "").toList

namespace Program

def tagNames (p : Program) : List (Option String) :=
  p.instructions.toList.map Instruction.tagName

theorem length_tagNames (p : Program) : p.tagNames.length = p.size :=
  List.length_map _

structure WellFormed (p : Program) : Prop where
  fits : ∀ i ∈ p.instructions.toList, i.Fits
  distinct : DistinctNames p.tagNames
  clean : ∀ i ∈ p.instructions.toList, ∀ name, i.tagName = some name →
    ∀ c ∈ name.toList, c ≠ ':' ∧ Text.isBlank c = false
  hashes : (p.instructions.toList.flatMap Instruction.nameChars).count '#' ≤ 1
  target : ∀ i ∈ p.instructions.toList, ∀ name target, i.operand = some (.tag name target) →
    DefinedAt p.tagNames name target
  table : p.tags.Indexes p.tagNames

end Program

/-- A character that stripping never takes away. -/
def Plain (c : Char) : Prop :=
  Text.isBlank c = false ∧ c ≠ '#'

theorem count_hash_of_plain {chars : List Char} (h : ∀ c ∈ chars, Plain c) :
    chars.count '#' = 0 := by
  rw [List.count_eq_zero]
  intro hmem
  exact (h '#' hmem).2 rfl

theorem plain_of_isDigit {c : Char} (h : c.isDigit = true) : Plain c := by
  have hrange := Char.isDigit_iff_toNat.mp h
  have hlow : 48 ≤ c.toNat := hrange.1
  have hhigh : c.toNat ≤ 57 := hrange.2
  constructor
  · simp only [Text.isBlank, Text.blankRanges, List.any_cons, List.any_nil, Bool.or_false,
      Bool.or_eq_false_iff, Bool.and_eq_false_iff, decide_eq_false_iff_not]
    omega
  · rintro rfl
    exact absurd hlow (by decide)

theorem plain_of_all {chars : List Char}
    (h : (chars.all fun c => !Text.isBlank c && c != '#') = true) : ∀ c ∈ chars, Plain c := by
  intro c hc
  have hplain := List.all_eq_true.mp h c hc
  simpa [Plain] using hplain

theorem plain_opcode_text (op : Opcode) : ∀ c ∈ op.text.toList, Plain c := by
  apply plain_of_all
  cases op <;> decide

theorem plain_register_text (r : Register) : ∀ c ∈ (Operand.register r).text.toList, Plain c := by
  apply plain_of_all
  cases r <;> decide

theorem plain_word_text (value : Int64) : ∀ c ∈ (Decimal.ofWord value).toList, Plain c := by
  intro c hc
  rw [← Decimal.text_numeral_ofWord] at hc
  rcases List.mem_append.mp hc with hsign | hdigit
  · split at hsign
    · obtain rfl : c = '-' := List.mem_singleton.mp hsign
      exact ⟨rfl, by decide⟩
    · cases hsign
  · exact plain_of_isDigit ((Decimal.Numeral.ofWord value).isDigit c hdigit)

theorem tagText_toList (name : String) : (tagText name).toList = ':' :: (name.toList ++ [':']) := by
  simp [tagText]

theorem plain_colon : Plain ':' := by
  unfold Plain
  decide

theorem count_hash_tagText (name : String) :
    (tagText name).toList.count '#' = name.toList.count '#' := by
  rw [tagText_toList, List.count_cons_of_ne (by decide), List.count_append]
  exact Nat.add_zero _

theorem not_blank_tagText {name : String} (h : ∀ c ∈ name.toList, Text.isBlank c = false) :
    ∀ c ∈ (tagText name).toList, Text.isBlank c = false := by
  intro c hc
  rw [tagText_toList, List.mem_cons, List.mem_append, List.mem_singleton] at hc
  rcases hc with rfl | hname | rfl
  · exact plain_colon.1
  · exact h c hname
  · exact plain_colon.1

theorem count_hash_operand_text (o : Operand) :
    o.text.toList.count '#' = (o.name?.getD "").toList.count '#' := by
  cases o with
  | literal value => exact count_hash_of_plain (plain_word_text value)
  | register r => exact count_hash_of_plain (plain_register_text r)
  | tag name target => exact count_hash_tagText name

theorem not_blank_operand_text {o : Operand}
    (h : ∀ name, o.name? = some name → ∀ c ∈ name.toList, Text.isBlank c = false) :
    ∀ c ∈ o.text.toList, Text.isBlank c = false := by
  cases o with
  | literal value => exact fun c hc => (plain_word_text value c hc).1
  | register r => exact fun c hc => (plain_register_text r c hc).1
  | tag name target => exact not_blank_tagText (h name rfl)

theorem Instruction.text_of_tag {i : Instruction} (h : i.isTag = true) :
    i.text = tagText (i.tagName.getD "") := by
  unfold Instruction.text
  rw [if_pos h]

theorem Instruction.text_of_action {i : Instruction} (h : i.isTag = false) :
    i.text.toList = i.opcode.text.toList ++
      ((i.operand.map Operand.text).getD "").toList ++ optionalChar i.breakpoint '*' := by
  unfold Instruction.text
  rw [h, if_neg Bool.false_ne_true, String.toList_append, String.toList_append]
  cases i.breakpoint <;> rfl

theorem plain_optional_star (present : Bool) : ∀ c ∈ optionalChar present '*', Plain c := by
  apply plain_of_all
  cases present <;> decide

theorem Instruction.Fits.count_hash_text {i : Instruction} (h : i.Fits) :
    i.text.toList.count '#' = i.nameChars.count '#' := by
  unfold nameChars
  rw [List.count_append]
  by_cases htag : i.isTag = true
  · obtain ⟨-, hoperand, -⟩ := h.2 htag
    rw [text_of_tag htag, count_hash_tagText, hoperand]
    rfl
  · have haction := Bool.eq_false_iff.mpr htag
    obtain ⟨hname, -⟩ := h.1 haction
    rw [text_of_action haction, List.count_append, List.count_append,
      count_hash_of_plain (plain_opcode_text _), count_hash_of_plain (plain_optional_star _), hname]
    cases i.operand with
    | none => rfl
    | some o =>
      have hcount := count_hash_operand_text o
      simpa using hcount

theorem Instruction.not_blank_text {i : Instruction}
    (hname : ∀ name, i.tagName = some name → ∀ c ∈ name.toList, Text.isBlank c = false)
    (hoperand : ∀ o ∈ i.operand, ∀ name, o.name? = some name →
      ∀ c ∈ name.toList, Text.isBlank c = false) :
    ∀ c ∈ i.text.toList, Text.isBlank c = false := by
  by_cases htag : i.isTag = true
  · rw [text_of_tag htag]
    apply not_blank_tagText
    cases hcase : i.tagName with
    | none => exact fun c hc => nomatch hc
    | some name => exact hname name hcase
  · intro c hc
    rw [text_of_action (Bool.eq_false_iff.mpr htag), List.mem_append, List.mem_append] at hc
    rcases hc with (hopcode | harg) | hstar
    · exact (plain_opcode_text _ c hopcode).1
    · cases hcase : i.operand with
      | none =>
        rw [hcase] at harg
        cases harg
      | some o =>
        rw [hcase] at harg
        exact not_blank_operand_text (hoperand o hcase) c harg
    · exact (plain_optional_star _ c hstar).1

theorem eq_tag_of_isTag {op : Opcode} (h : op.isTag = true) : op = .tag := by
  cases op with
  | tag => rfl
  | _ => cases h

theorem mem_mnemonics_of_not_tag : ∀ op : Opcode, op.isTag = false →
    (op.text, op) ∈ Opcode.mnemonics.entries := by
  intro op
  cases op <;> decide

namespace Program.WellFormed

variable {p : Program}

theorem clean_of_definedAt (wf : p.WellFormed) {name : String} {index : Nat}
    (h : DefinedAt p.tagNames name index) :
    ∀ c ∈ name.toList, c ≠ ':' ∧ Text.isBlank c = false := by
  have hmem : some name ∈ p.tagNames := List.mem_of_getElem? h
  obtain ⟨i, hi, hname⟩ := List.mem_map.mp hmem
  exact wf.clean i hi name hname

theorem clean_of_operand (wf : p.WellFormed) {i : Instruction} (hi : i ∈ p.instructions.toList)
    {o : Operand} (ho : i.operand = some o) {name : String} (hname : o.name? = some name) :
    ∀ c ∈ name.toList, c ≠ ':' ∧ Text.isBlank c = false := by
  cases o with
  | literal _ | register _ => cases hname
  | tag other target =>
    obtain rfl : other = name := Option.some.inj hname
    exact wf.clean_of_definedAt (wf.target i hi other target ho)

theorem not_blank_text (wf : p.WellFormed) {i : Instruction} (hi : i ∈ p.instructions.toList) :
    ∀ c ∈ i.text.toList, Text.isBlank c = false := by
  apply Instruction.not_blank_text
  · intro name hname c hc
    exact (wf.clean i hi name hname c hc).2
  · intro o ho name hname c hc
    exact (wf.clean_of_operand hi ho hname c hc).2

theorem exists_argument (wf : p.WellFormed) {i : Instruction} (hi : i ∈ p.instructions.toList)
    {o : Operand} (ho : i.operand = some o) :
    ∃ a : ArgumentSpelling, a.text = o.text.toList ∧ Resolves p.tagNames a.argument o := by
  cases o with
  | literal value =>
    refine ⟨.number (.ofWord value), Decimal.text_numeral_ofWord value, ?_⟩
    change Resolves _ (.literal (Decimal.Numeral.ofWord value).word) _
    rw [Decimal.word_numeral_ofWord]
    exact .literal value
  | register r =>
    refine ⟨.register r, ?_, .register r⟩
    cases r <;> rfl
  | tag name target =>
    have hdefined := wf.target i hi name target ho
    have hcolon : ':' ∉ name.toList := fun h => (wf.clean_of_definedAt hdefined ':' h).1 rfl
    refine ⟨.tag ⟨name.toList, hcolon⟩, (tagText_toList name).symm, ?_⟩
    change Resolves _ (.tag (String.ofList name.toList)) _
    rw [String.ofList_toList]
    exact .tag hdefined

/-- The text of an instruction spells a block that becomes the instruction. -/
theorem exists_spelling (wf : p.WellFormed) {i : Instruction} (hi : i ∈ p.instructions.toList) :
    ∃ b : BlockSpelling, b.text = i.text.toList ∧
      ∀ position, Becomes p.tagNames (b.block position) i := by
  have hfits := wf.fits i hi
  by_cases htag : i.isTag = true
  · obtain ⟨hsome, hoperand, hbreakpoint⟩ := hfits.2 htag
    obtain ⟨name, hname⟩ := Option.isSome_iff_exists.mp hsome
    have hcolon : ':' ∉ name.toList := fun h => (wf.clean i hi name hname ':' h).1 rfl
    have hi' : i = ⟨.tag, none, false, some name⟩ := by
      rw [← eq_tag_of_isTag htag, ← hoperand, ← hbreakpoint, ← hname]
    refine ⟨.tag ⟨name.toList, hcolon⟩, ?_, fun position => ?_⟩
    · rw [Instruction.text_of_tag htag, hname]
      exact (tagText_toList name).symm
    · change Becomes _ (.tag (String.ofList name.toList) position) i
      rw [String.ofList_toList, hi']
      exact .tag name position
  · have haction := Bool.eq_false_iff.mpr htag
    obtain ⟨hname, harity⟩ := hfits.1 haction
    have known := mem_mnemonics_of_not_tag i.opcode haction
    have htext := Instruction.text_of_action haction
    obtain ⟨opcode, operand, breakpoint, tagName⟩ := i
    dsimp only at hname harity known htext
    subst hname
    cases operand with
    | none =>
      refine ⟨.action opcode.text opcode known none harity breakpoint false, ?_,
        fun position => .bare opcode breakpoint position⟩
      rw [htext]
      simp [BlockSpelling.text, BlockSpelling.tailText, optionalChar]
    | some o =>
      obtain ⟨a, hatext, hresolves⟩ := wf.exists_argument hi rfl
      refine ⟨.action opcode.text opcode known (some a) harity breakpoint false, ?_,
        fun position => .applied opcode breakpoint position hresolves⟩
      rw [htext]
      simp [BlockSpelling.text, BlockSpelling.tailText, optionalChar, hatext]

/-- So do the texts of all instructions together. -/
theorem exists_spelling_all (wf : p.WellFormed) {instructions : List Instruction}
    (h : ∀ i ∈ instructions, i ∈ p.instructions.toList) :
    ∃ spelling : Spelling, spelling.text = instructions.flatMap (·.text.toList) ∧
      ∀ position, List.Forall₂ (Becomes p.tagNames) (spelling.blocks position) instructions := by
  induction instructions with
  | nil => exact ⟨[], rfl, fun _ => .nil⟩
  | cons i rest ih =>
    obtain ⟨b, hb, hbecomes⟩ := wf.exists_spelling (h i List.mem_cons_self)
    obtain ⟨later, hlater, hall⟩ := ih fun j hj => h j (List.mem_cons_of_mem _ hj)
    refine ⟨b :: later, ?_, fun position => .cons (hbecomes position) (hall _)⟩
    rw [Spelling.text_cons, hb, hlater, List.flatMap_cons]

end Program.WellFormed

theorem Becomes.reference_defined {names : List (Option String)} {block : Block} {i : Instruction}
    (h : Becomes names block i) {name : String} (hname : block.reference? = some name) :
    ∃ index, DefinedAt names name index := by
  cases h with
  | tag _ _ | bare _ _ _ => cases hname
  | applied opcode breakpoint position resolved =>
    cases resolved with
    | literal _ | register _ => cases hname
    | tag defined =>
      obtain rfl := Option.some.inj hname
      exact ⟨_, defined⟩

theorem Becomes.references_defined {names : List (Option String)} {blocks : List Block}
    {instructions : List Instruction} (h : List.Forall₂ (Becomes names) blocks instructions) :
    ∀ block ∈ blocks, ∀ name, block.reference? = some name →
      ∃ index, DefinedAt names name index := by
  induction h with
  | nil => exact fun _ hno => nomatch hno
  | cons hbecomes _ ih =>
    intro block hblock name hname
    rcases List.mem_cons.mp hblock with rfl | hblock
    · exact hbecomes.reference_defined hname
    · exact ih block hblock name hname

/-- A source assembles to a program if its code spells blocks that become the instructions, and the
table of the program indexes their tags. -/
theorem assemble_eq_ok_iff {source : String} {p : Program} :
    assemble source = .ok p ↔ ∃ spelling : Spelling, Source.strip source = spelling.text ∧
      List.Forall₂ (Becomes p.tagNames) (spelling.blocks 0) p.instructions.toList ∧
      p.tags.Indexes p.tagNames := by
  have hverdict := verdict_assemble source
  constructor
  · intro h
    rw [h] at hverdict
    cases hverdict with
    | linked distinct complete defined instructions table =>
      obtain ⟨spelling, htext, hblocks⟩ := Scan.exists_spelling_of_readMany complete
      have hnames : p.tagNames = Block.tagNames (Scan.ofSource source).readMany.1 :=
        tagName_of_forall₂_becomes instructions
      rw [← hnames] at distinct instructions
      rw [hblocks] at instructions
      refine ⟨spelling, htext, instructions, ?_⟩
      rw [table]
      exact TagTable.indexes_ofInstructions p.instructions distinct
  · rintro ⟨spelling, htext, hall, hindexes⟩
    have hnames : p.tagNames = Block.tagNames (spelling.blocks 0) := tagName_of_forall₂_becomes hall
    have hdistinct : DistinctNames p.tagNames := hindexes.distinct
    rw [Scan.readMany_ofSource htext] at hverdict
    apply hverdict.unique
    rw [hnames] at hall hdistinct
    refine .linked hdistinct rfl (Becomes.references_defined hall) hall ?_
    exact hindexes.unique (TagTable.indexes_ofInstructions p.instructions hindexes.distinct)

/-- A text whose code is that of the instructions of a well-formed program assembles to it. -/
theorem Program.WellFormed.assemble_eq {p : Program} (wf : p.WellFormed) {source : String}
    (h : Source.strip source = p.instructions.toList.flatMap (·.text.toList)) :
    assemble source = .ok p := by
  obtain ⟨spelling, htext, hall⟩ := wf.exists_spelling_all fun i hi => hi
  exact assemble_eq_ok_iff.mpr ⟨spelling, h.trans htext.symm, hall 0, wf.table⟩

theorem filter_intercalate {α : Type} {q : α → Bool} {separator : List α}
    (hsep : ∀ c ∈ separator, q c = false) (pieces : List (List α)) :
    (separator.intercalate pieces).filter q = pieces.flatten.filter q := by
  have hnil : separator.filter q = [] := by
    rw [List.filter_eq_nil_iff]
    intro c hc
    simp [hsep c hc]
  induction pieces with
  | nil => rfl
  | cons piece rest ih =>
    cases rest with
    | nil => simp
    | cons next more =>
      rw [List.intercalate_cons_cons, List.filter_append, List.filter_append, hnil, ih,
        List.append_nil, ← List.filter_append]
      rfl

theorem Program.WellFormed.strip_eq {p : Program} (wf : p.WellFormed) {source : String}
    (h : ∀ q : Char → Bool, q '\n' = false → source.toList.filter q =
      (p.instructions.toList.flatMap (·.text.toList)).filter q) :
    Source.strip source = p.instructions.toList.flatMap (·.text.toList) := by
  have hhashes : (p.instructions.toList.flatMap (·.text.toList)).count '#' ≤ 1 := by
    refine Nat.le_trans (Nat.le_of_eq ?_) wf.hashes
    rw [List.count_flatMap, List.count_flatMap]
    congr 1
    apply List.map_congr_left
    intro i hi
    exact (wf.fits i hi).count_hash_text
  have hcount : source.toList.count '#' ≤ 1 := by
    rw [List.count_eq_length_filter, h _ (by decide), ← List.count_eq_length_filter]
    exact hhashes
  rw [Source.strip_eq_code, Source.code_of_count_le_one hcount, h _ (by decide),
    List.filter_eq_self]
  intro c hc
  obtain ⟨i, hi, hmem⟩ := List.mem_flatMap.mp hc
  rw [wf.not_blank_text hi c hmem]
  rfl

theorem source_ofProgram (p : Program) : (Listing.ofProgram p).source =
    String.intercalate "\n" (p.instructions.toList.map Instruction.text) := by
  have hentries : (Listing.ofProgram p).entries.map ListingEntry.source =
      p.instructions.toList.map Instruction.text := by
    apply List.ext_getElem
    · simp [Listing.ofProgram]
    · intro index hleft hright
      simp [Listing.ofProgram, ListingEntry.ofInstruction]
  unfold Listing.source
  rw [hentries]

theorem opcode_ne_tag : ∀ entry ∈ Opcode.mnemonics.entries, entry.2.isTag = false := by
  decide

variable {names : List (Option String)} {b : BlockSpelling} {position : Nat} {i : Instruction}

theorem Becomes.fits (h : Becomes names (b.block position) i) : i.Fits := by
  cases b with
  | tag n =>
    cases h
    exact ⟨(nomatch ·), fun _ => ⟨rfl, rfl, rfl⟩⟩
  | action word opcode known argument arity breakpoint separator =>
    have hopcode : opcode.isTag = false := opcode_ne_tag _ known
    have hno (o : Option Operand) :
        ¬(⟨opcode, o, breakpoint, none⟩ : Instruction).isTag = true := by
      unfold Instruction.isTag
      simp [hopcode]
    cases argument with
    | none =>
      cases h
      exact ⟨fun _ => ⟨rfl, arity⟩, fun htag => absurd htag (hno _)⟩
    | some a =>
      cases h
      exact ⟨fun _ => ⟨rfl, arity⟩, fun htag => absurd htag (hno _)⟩

theorem Becomes.tagName_spelled (h : Becomes names (b.block position) i) {name : String}
    (hname : i.tagName = some name) : ∀ c ∈ name.toList, c ≠ ':' ∧ c ∈ b.text := by
  rw [h.tagName_eq] at hname
  cases b with
  | action word opcode known argument arity breakpoint separator => cases hname
  | tag n =>
    obtain rfl : n.name = name := Option.some.inj hname
    intro c hc
    rw [TagName.name, String.toList_ofList] at hc
    refine ⟨fun hcolon => n.no_colon (hcolon ▸ hc), ?_⟩
    exact List.mem_cons_of_mem _ (List.mem_append_left _ hc)

theorem TagName.count_le_text (n : TagName) (c : Char) :
    n.name.toList.count c ≤ n.text.count c := by
  unfold TagName.name TagName.text
  rw [String.toList_ofList]
  apply List.Sublist.count_le
  exact (List.sublist_append_left _ _).cons _

/-- An instruction holds no more `#` than the text it came from. -/
theorem Becomes.hashes_le (h : Becomes names (b.block position) i) :
    i.nameChars.count '#' ≤ b.text.count '#' := by
  cases b with
  | tag n =>
    cases h
    change (n.name.toList ++ []).count '#' ≤ n.text.count '#'
    rw [List.append_nil]
    exact n.count_le_text '#'
  | action word opcode known argument arity breakpoint separator =>
    cases argument with
    | none =>
      cases h
      exact Nat.zero_le _
    | some a =>
      cases h with
      | applied _ _ _ resolved =>
        have hle : a.text.count '#' ≤ (BlockSpelling.action word opcode known (some a) arity
            breakpoint separator).text.count '#' := by
          apply List.Sublist.count_le
          exact (List.sublist_append_left _ _).trans (List.sublist_append_right _ _)
        refine Nat.le_trans ?_ hle
        cases a with
        | number _ | quoted _ _ | register _ =>
          cases resolved
          exact Nat.zero_le _
        | tag n =>
          cases resolved
          exact n.count_le_text '#'

theorem Becomes.target_defined {block : Block} (h : Becomes names block i) {name : String}
    {target : Nat} (hoperand : i.operand = some (.tag name target)) :
    DefinedAt names name target := by
  cases h with
  | tag _ _ | bare _ _ _ => cases hoperand
  | applied _ _ _ resolved =>
    obtain rfl := Option.some.inj hoperand
    cases resolved with
    | tag defined => exact defined

theorem exists_spelling_of_becomes {spelling : Spelling} {instructions : List Instruction}
    (h : List.Forall₂ (Becomes names) (spelling.blocks position) instructions) :
    (∀ i ∈ instructions, ∃ b ∈ spelling, ∃ place, Becomes names (b.block place) i) ∧
      (instructions.flatMap Instruction.nameChars).count '#' ≤ spelling.text.count '#' := by
  induction spelling generalizing position instructions with
  | nil =>
    cases h
    exact ⟨fun i hi => (List.not_mem_nil hi).elim, Nat.le_refl _⟩
  | cons b later ih =>
    cases h with
    | cons hbecomes hall =>
      obtain ⟨hlater, hsum⟩ := ih hall
      constructor
      · intro j hj
        rcases List.mem_cons.mp hj with rfl | hj
        · exact ⟨b, List.mem_cons_self, position, hbecomes⟩
        · obtain ⟨d, hd, place, hplace⟩ := hlater j hj
          exact ⟨d, List.mem_cons_of_mem _ hd, place, hplace⟩
      · rw [List.flatMap_cons, List.count_append, Spelling.text_cons, List.count_append]
        exact Nat.add_le_add hbecomes.hashes_le hsum

theorem wellFormed_of_assemble {source : String} {p : Program} (h : assemble source = .ok p) :
    p.WellFormed := by
  obtain ⟨spelling, htext, hall, htable⟩ := assemble_eq_ok_iff.mp h
  obtain ⟨horigin, hhashes⟩ := exists_spelling_of_becomes hall
  have hcode : Source.code false source.toList = spelling.text := htext
  constructor
  · intro i hi
    obtain ⟨b, -, place, hbecomes⟩ := horigin i hi
    exact hbecomes.fits
  · exact htable.distinct
  · intro i hi name hname c hc
    obtain ⟨b, hb, place, hbecomes⟩ := horigin i hi
    obtain ⟨hcolon, hmem⟩ := hbecomes.tagName_spelled hname c hc
    have hstripped : c ∈ Source.code false source.toList := by
      rw [hcode]
      exact List.mem_flatMap.mpr ⟨b, hb, hmem⟩
    exact ⟨hcolon, (Source.mem_code hstripped).2⟩
  · rw [← hcode] at hhashes
    exact Nat.le_trans hhashes (Source.count_hash_code_le_one false _)
  · intro i hi name target hoperand
    obtain ⟨b, -, place, hbecomes⟩ := horigin i hi
    exact hbecomes.target_defined hoperand
  · exact htable

namespace Program.WellFormed

variable {p : Program}

/-- The lines of a program, with any number of line feeds behind them, assemble to it. -/
theorem assemble_lines (wf : p.WellFormed) (ending : String)
    (hending : ∀ c ∈ ending.toList, c = '\n') :
    assemble ((Listing.ofProgram p).source ++ ending) = .ok p := by
  apply wf.assemble_eq
  apply wf.strip_eq
  intro q hq
  have hnil : ending.toList.filter q = [] := by
    rw [List.filter_eq_nil_iff]
    intro c hc
    rw [hending c hc, hq]
    exact Bool.false_ne_true
  have hfeed : ∀ c ∈ "\n".toList, q c = false := by simpa using hq
  rw [String.toList_append, List.filter_append, hnil, List.append_nil, source_ofProgram,
    String.toList_intercalate, filter_intercalate hfeed, List.map_map, List.flatMap_def]
  rfl

theorem assemble_source (wf : p.WellFormed) : assemble (Listing.ofProgram p).source = .ok p := by
  have h := wf.assemble_lines "" (fun c hc => nomatch hc)
  rwa [String.append_empty] at h

theorem assemble_join (wf : p.WellFormed) :
    assemble (String.join (p.instructions.toList.map Instruction.text)) = .ok p := by
  apply wf.assemble_eq
  apply wf.strip_eq
  intro q _
  rw [String.toList_join, List.flatMap_map]

end Program.WellFormed

/-- The source of a program assembles to it if and only if the program is well formed. All assembled
programs are, so what is dumped of one assembles to it again: line by line, with a line feed at the
end, or all in one line. -/
theorem assemble_source_iff_wellFormed :
    (∀ p : Program, assemble (Listing.ofProgram p).source = .ok p ↔ p.WellFormed) ∧
    ∀ (source : String) (p : Program), assemble source = .ok p →
      p.WellFormed ∧
      assemble (Listing.ofProgram p).source = .ok p ∧
      assemble (CommandLine.dumpText p .source) = .ok p ∧
      assemble (String.join (p.instructions.toList.map Instruction.text)) = .ok p := by
  refine ⟨fun p => ⟨wellFormed_of_assemble, fun wf => wf.assemble_source⟩, ?_⟩
  intro source p h
  have wf := wellFormed_of_assemble h
  exact ⟨wf, wf.assemble_source, wf.assemble_lines "\n" (by simp), wf.assemble_join⟩

/-- Names of marks, a lone `#` and the empty name, the least word with a zero in front and a quote
closed by a colon. -/
def intricate : Program :=
  .ofInstructions #[.tag "'*;#", ⟨.assign, some (.literal Int64.minValue), true, none⟩,
    ⟨.assign, some (.literal 120), false, none⟩, .tag "", ⟨.jump, some (.tag "" 3), false, none⟩,
    .tag "b", ⟨.jumpIfZero, some (.tag "b" 5), true, none⟩]

theorem assemble_source_intricate :
    assemble ":'*;#: giv-09223372036854775808*; giv'x: :: jmp:: :b: jez:b:*" = .ok intricate ∧
    intricate.WellFormed ∧
    assemble (Listing.ofProgram intricate).source = .ok intricate ∧
    assemble (CommandLine.dumpText intricate .source) = .ok intricate ∧
    assemble (String.join (intricate.instructions.toList.map Instruction.text)) =
      .ok intricate := by
  have h : assemble ":'*;#: giv-09223372036854775808*; giv'x: :: jmp:: :b: jez:b:*" =
      .ok intricate := by decide +kernel
  exact ⟨h, assemble_source_iff_wellFormed.2 _ _ h⟩

end AccumulatorMachine
