import AccumulatorMachine.Proofs.Linking
import AccumulatorMachine.Proofs.Stripping

/-!
Errors of assembly point at what they name. For each kind of error it is said, in terms of the
stripped source alone, what stands at the position that the error gives, and that the text it names is
the text there. An error inside a block comes with the start of that block: all that stands in front
of it can be read.
-/
namespace AccumulatorMachine

/-- The characters of a text from one position up to another. -/
def span (text : List Char) (start finish : Nat) : List Char :=
  (text.drop start).take (finish - start)

/-- A mnemonic whose opcode takes an operand. -/
def IsOperator (word : List Char) : Prop :=
  ∃ entry ∈ Opcode.mnemonics.entries, entry.1.toList = word ∧ entry.2.takesOperand = true

/-- Digits behind a `-`, both of which can be missing. -/
def SignedDigits (text : List Char) : Prop :=
  ∃ negative digits, text = optionalChar negative '-' ++ digits ∧
    ∀ c ∈ digits, c.isDigit = true

/-- The text of an integer that is no signed word. -/
def TooLarge (text : List Char) : Prop :=
  ∃ negative digits, text = optionalChar negative '-' ++ digits ∧ digits ≠ [] ∧
    (∀ c ∈ digits, c.isDigit = true) ∧
    (Decimal.signedValue negative digits < Int64.minValue.toInt ∨
      Int64.maxValue.toInt < Decimal.signedValue negative digits)

/-- What an error in the block that starts at `start` says of the text. -/
def BlockError.Describes (text : List Char) (start : Nat) : BlockError → Prop
  | .unknownMnemonic named position =>
    position = start ∧ start < text.length ∧
    (∀ entry ∈ Opcode.mnemonics.entries, ¬entry.1.toList <+: text.drop position) ∧
    ∃ c, text[position]? = some c ∧ c ≠ ':' ∧
      (isTerminator c = true → named.toList = [c]) ∧
      (isTerminator c = false →
        LongestStart (fun run => ∀ d ∈ run, isTerminator d = false) named.toList
          (text.drop position))
  | .unknownRegister symbol position =>
    text[position]? = some symbol ∧ symbol ∉ ['A', 'Z', 'S', 'I', '-', '\'', ':'] ∧
    symbol.isDigit = false ∧ start ≤ position ∧ IsOperator (span text start position)
  | .badNumber named position =>
    start ≤ position ∧ IsOperator (span text start position) ∧
    LongestStart SignedDigits named.toList (text.drop position) ∧
    (named = "-" ∨ TooLarge named.toList)
  | .unclosedTag position =>
    ∃ colon, position = colon + 1 ∧ text[colon]? = some ':' ∧
    (colon = start ∨ start ≤ colon ∧ IsOperator (span text start colon)) ∧
    ':' ∉ text.drop position
  | .endOfSource place =>
    place.index = text.length ∧ place.length = text.length ∧
    ∃ word tail, text.drop start = word ++ tail ∧ IsOperator word ∧
      (tail = [] ∨ tail = ['\''] ∨ ∃ c, tail = ['\'', c])

/-- The blocks are read from a scan one after the other, up to another scan. -/
inductive Scan.Reads : Scan → List Block → Scan → Prop
  | done (s : Scan) : Reads s [] s
  | block {s next last : Scan} {block : Block} {later : List Block}
    (hblock : s.readBlock = (.ok block, next)) (hlater : Reads next later last) :
    Reads s (block :: later) last

/-- What an error says of a source. -/
def AssemblyError.Describes (source : String) : AssemblyError → Prop
  | .malformed e =>
    ∃ blocks s, (Scan.ofSource source).Reads blocks s ∧ s.readBlock.1 = .error e ∧
      s.remaining = (Source.strip source).drop s.position ∧
      Block.ofSource (String.ofList ((Source.strip source).take s.position)) = .ok blocks ∧
      e.Describes (Source.strip source) s.position
  | .duplicateTag name first second =>
    ∃ blocks s, (Scan.ofSource source).Reads blocks s ∧ first < second ∧
      ∀ index, index = first ∨ index = second → ∃ position,
        blocks[index]? = some (.tag name position) ∧
        (tagText name).toList <+: (Source.strip source).drop position
  | .undefinedTag name position =>
    ∃ blocks, Block.ofSource source = .ok blocks ∧
      (∃ opcode breakpoint, .action opcode (some (.tag name)) breakpoint position ∈ blocks) ∧
      (∀ place, .tag name place ∉ blocks) ∧
      ∃ word, IsOperator word ∧
        word ++ (tagText name).toList <+: (Source.strip source).drop position

theorem longestStart_numberText (text : List Char) :
    LongestStart SignedDigits (numberText text) text := by
  have hrun := longestStart_takeWhile Char.isDigit
  by_cases hminus : text.head? = some '-'
  · obtain ⟨rest, rfl⟩ := List.head?_eq_some_iff.mp hminus
    change LongestStart SignedDigits ('-' :: rest.takeWhile Char.isDigit) ('-' :: rest)
    refine ⟨(List.prefix_cons_inj _).mpr (hrun rest).starts,
      ⟨true, _, rfl, (hrun rest).has_form⟩, ?_⟩
    rintro other hother ⟨negative, digits, rfl, hdigits⟩
    cases negative with
    | true =>
      have hlen := (hrun rest).longest digits ((List.prefix_cons_inj _).mp hother) hdigits
      exact Nat.succ_le_succ hlen
    | false =>
      cases digits with
      | nil => exact Nat.zero_le _
      | cons c more =>
        obtain rfl : c = '-' := by simpa using List.cons_prefix_cons.mp hother |>.1
        exact absurd (hdigits '-' List.mem_cons_self) (by decide)
  · rw [Scan.numberText_of_head_ne hminus]
    refine ⟨(hrun text).starts, ⟨false, _, rfl, (hrun text).has_form⟩, ?_⟩
    rintro other hother ⟨negative, digits, rfl, hdigits⟩
    cases negative with
    | true =>
      obtain ⟨rest, rfl⟩ := hother
      exact absurd rfl hminus
    | false => exact (hrun text).longest digits hother hdigits

/-- A number that cannot be read has no digits, or does not fit a word. -/
theorem eq_minus_or_tooLarge {text : List Char} (hform : SignedDigits text) (hne : text ≠ [])
    (hword : Decimal.word? text = none) : text = ['-'] ∨ TooLarge text := by
  obtain ⟨negative, digits, rfl, hdigits⟩ := hform
  by_cases hnil : digits = []
  · subst hnil
    cases negative with
    | true => exact Or.inl rfl
    | false => exact absurd rfl hne
  · refine Or.inr ⟨negative, digits, rfl, hnil, hdigits, ?_⟩
    by_contra hfits
    obtain ⟨hmin, hmax⟩ := not_or.mp hfits
    have hread := Decimal.word?_text
      ⟨negative, digits, hnil, hdigits, Int.not_lt.mp hmin, Int.not_lt.mp hmax⟩
    have htext : Decimal.Numeral.text
        ⟨negative, digits, hnil, hdigits, Int.not_lt.mp hmin, Int.not_lt.mp hmax⟩ =
        optionalChar negative '-' ++ digits := rfl
    rw [htext, hword] at hread
    cases hread

namespace Scan

theorem map_eq_error {α β : Type} {f : α → β} {reading : Reading α} {e : BlockError} {t : Scan}
    (h : reading.map f = (.error e, t)) : reading = (.error e, t) := by
  obtain ⟨result, s⟩ := reading
  cases result with
  | error e' =>
    obtain ⟨he, rfl⟩ := Prod.mk.inj h
    rw [Except.error.inj he]
  | ok value => cases h

theorem bind_eq_error {α β : Type} {reading : Reading α} {next : α → Scan → Reading β}
    {e : BlockError} {t : Scan} (h : reading.bind next = (.error e, t)) :
    reading = (.error e, t) ∨ ∃ first s, reading = (.ok first, s) ∧ next first s = (.error e, t) := by
  obtain ⟨result, s⟩ := reading
  cases result with
  | error e' =>
    obtain ⟨he, rfl⟩ := Prod.mk.inj h
    exact Or.inl (by rw [Except.error.inj he])
  | ok first => exact Or.inr ⟨first, s, rfl, h⟩

variable {front text : List Char} {t : Scan} {e : BlockError}

theorem readName_error (h : readName (.between front text) = (.error e, t)) :
    e = .unclosedTag front.length ∧ ':' ∉ text := by
  have hno : ':' ∉ text := by
    intro hcolon
    obtain ⟨chars, rest, rfl, hchars⟩ := List.eq_append_cons_of_mem hcolon
    rw [readName_chars front ⟨chars, hchars⟩ rest] at h
    cases h
  rw [readName_of_no_colon front hno] at h
  exact ⟨(Except.error.inj (Prod.mk.inj h).1).symm, hno⟩

theorem readMnemonic_error
    (h : readMnemonic Opcode.mnemonics (.between front text) = (.error e, t)) :
    (∀ entry ∈ Opcode.mnemonics.entries, ¬entry.1.toList <+: text) ∧
      ∃ named, e = .unknownMnemonic (String.ofList named) front.length ∧
        named = if (text.takeWhile fun c => !isTerminator c).isEmpty then text.take 1
          else text.takeWhile fun c => !isTerminator c := by
  have hnone : ∀ entry ∈ Opcode.mnemonics.entries, ¬entry.1.toList <+: text := by
    rintro ⟨word, opcode⟩ known ⟨rest, rfl⟩
    rw [readMnemonic_append front known rest] at h
    cases h
  rw [readMnemonic_of_none hnone] at h
  exact ⟨hnone, _, (Except.error.inj (Prod.mk.inj h).1).symm, rfl⟩

theorem readNumber_error (h : readNumber (.between front text) = (.error e, t)) :
    e = .badNumber (String.ofList (numberText text)) front.length ∧
      Decimal.word? (numberText text) = none := by
  obtain ⟨rest, -, hread⟩ := readNumber_between front text
  rw [hread] at h
  split at h
  · cases h
  · rename_i hword
    exact ⟨(Except.error.inj (Prod.mk.inj h).1).symm, hword⟩

/-- Quotes fail only where the text ends inside of them. -/
theorem readQuoted_error (h : readQuoted (.between front text) = (.error e, t)) :
    e = .endOfSource ⟨front.length + text.length, front.length + text.length⟩ ∧
      text.length < 3 := by
  unfold readQuoted at h
  rcases text with _ | ⟨opening, _ | ⟨c, _ | ⟨closing, rest⟩⟩⟩
  · rw [readChar_nil] at h
    obtain rfl := Except.error.inj (Prod.mk.inj h).1
    exact ⟨rfl, by decide⟩
  · rw [readChar_cons] at h
    dsimp only [Reading.bind] at h
    rw [readChar_nil] at h
    obtain rfl := Except.error.inj (Prod.mk.inj h).1
    simp
  · rw [readChar_cons] at h
    dsimp only [Reading.bind] at h
    rw [readChar_cons] at h
    dsimp only [Reading.bind] at h
    rw [readChar_nil] at h
    obtain rfl := Except.error.inj (Prod.mk.inj h).1
    simp
  · have hread := readQuoted_append front opening c closing rest
    unfold readQuoted at hread
    cases hread.symm.trans h

end Scan

theorem numberText_ne_nil {c : Char} (hc : (c.isDigit || c == '-') = true) (rest : List Char) :
    numberText (c :: rest) ≠ [] := by
  intro hnil
  have hone : SignedDigits [c] := by
    rcases Bool.or_eq_true_iff.mp hc with hdigit | hminus
    · exact ⟨false, [c], rfl, by simpa using hdigit⟩
    · exact ⟨true, [], by simpa [optionalChar] using hminus, by simp⟩
  have hlen := (longestStart_numberText (c :: rest)).longest [c] ⟨rest, rfl⟩ hone
  rw [hnil] at hlen
  exact Nat.not_succ_le_zero 0 hlen

theorem not_register {c : Char} (h : Register.ofSymbol? c = none) :
    c ∉ ['A', 'Z', 'S', 'I'] := by
  intro hmem
  have hnone : (['A', 'Z', 'S', 'I'].all fun d => (Register.ofSymbol? d).isSome) = true := by
    decide
  have hsome := List.all_eq_true.mp hnone c hmem
  rw [h] at hsome
  cases hsome

section Block

variable {front word tail : List Char} {e : BlockError}

theorem span_operator (front word tail : List Char) :
    span (front ++ (word ++ tail)) front.length (front.length + word.length) = word := by
  simp [span]

theorem drop_operator (front word tail : List Char) :
    (front ++ (word ++ tail)).drop (front.length + word.length) = tail := by
  simp

theorem getElem?_operator (front word tail : List Char) :
    (front ++ (word ++ tail))[front.length + word.length]? = tail.head? := by
  rw [← drop_operator front word tail, List.head?_drop, drop_operator]

theorem describes_endOfSource (hword : IsOperator word)
    (htail : tail = [] ∨ tail = ['\''] ∨ ∃ c, tail = ['\'', c]) :
    (BlockError.endOfSource ⟨front.length + word.length + tail.length,
      front.length + word.length + tail.length⟩).Describes (front ++ (word ++ tail))
        front.length := by
  have hlength : front.length + word.length + tail.length = (front ++ (word ++ tail)).length := by
    simp only [List.length_append, Nat.add_assoc]
  exact ⟨hlength, hlength, word, tail, List.drop_left, hword, htail⟩

theorem describes_badNumber (hword : IsOperator word) {c : Char} {rest : List Char}
    (hc : (c.isDigit || c == '-') = true)
    (hnone : Decimal.word? (numberText (c :: rest)) = none) :
    (BlockError.badNumber (String.ofList (numberText (c :: rest)))
      (front.length + word.length)).Describes (front ++ (word ++ c :: rest)) front.length := by
  have hlongest := longestStart_numberText (c :: rest)
  have hkind := eq_minus_or_tooLarge hlongest.has_form (numberText_ne_nil hc rest) hnone
  refine ⟨Nat.le_add_right _ _, ?_, ?_, ?_⟩
  · rwa [span_operator]
  · rwa [drop_operator, String.toList_ofList]
  · rw [String.toList_ofList]
    refine hkind.imp_left fun hminus => ?_
    rw [hminus]

theorem describes_unclosedTag {rest : List Char} (hword : word = [] ∨ IsOperator word)
    (hno : ':' ∉ rest) :
    (BlockError.unclosedTag (front.length + word.length + 1)).Describes
      (front ++ (word ++ ':' :: rest)) front.length := by
  refine ⟨front.length + word.length, rfl, getElem?_operator front word (':' :: rest), ?_, ?_⟩
  · rcases hword with rfl | hword
    · exact Or.inl rfl
    · refine Or.inr ⟨Nat.le_add_right _ _, ?_⟩
      rwa [span_operator]
  · rw [← List.drop_drop, drop_operator]
    exact hno

theorem describes_unknownRegister (hword : IsOperator word) {c : Char} {rest : List Char}
    (hnumber : (c.isDigit || c == '-') = false) (hquote : c ≠ '\'') (hcolon : c ≠ ':')
    (hnone : Register.ofSymbol? c = none) :
    (BlockError.unknownRegister c (front.length + word.length)).Describes
      (front ++ (word ++ c :: rest)) front.length := by
  obtain ⟨hdigit, hminus⟩ := Bool.or_eq_false_iff.mp hnumber
  have hregister := not_register hnone
  refine ⟨getElem?_operator front word (c :: rest), ?_, hdigit, Nat.le_add_right _ _, ?_⟩
  · simp_all
  · rwa [span_operator]

/-- The errors in the argument behind an operator. -/
theorem describes_of_readArgument {last : Scan} (hword : IsOperator word)
    (h : Scan.readArgument (.between (front ++ word) tail) = (.error e, last)) :
    e.Describes (front ++ (word ++ tail)) front.length := by
  cases tail with
  | nil =>
    rw [Scan.readArgument_nil] at h
    obtain rfl := Except.error.inj (Prod.mk.inj h).1
    rw [List.length_append]
    exact describes_endOfSource hword (Or.inl rfl)
  | cons c rest =>
    rw [Scan.readArgument_cons] at h
    rcases ArgumentKind.ofChar_cases c with ⟨hnumber, hkind⟩ | ⟨rfl, hkind⟩ | ⟨rfl, hkind⟩ |
      ⟨⟨hnumber, hquote, hcolon⟩, hkind⟩
    · rw [hkind] at h
      obtain ⟨rfl, hnone⟩ := Scan.readNumber_error h
      rw [List.length_append]
      exact describes_badNumber hword hnumber hnone
    · rw [hkind] at h
      obtain ⟨rfl, hshort⟩ := Scan.readQuoted_error h
      rw [List.length_append]
      apply describes_endOfSource hword
      rcases rest with _ | ⟨d, _ | ⟨closing, more⟩⟩
      · exact Or.inr (Or.inl rfl)
      · exact Or.inr (Or.inr ⟨d, rfl⟩)
      · simp only [List.length_cons] at hshort
        omega
    · rw [hkind] at h
      obtain ⟨rfl, hno⟩ := Scan.readName_error (Scan.map_eq_error h)
      rw [List.length_append, List.length_append]
      exact describes_unclosedTag (Or.inr hword) hno
    · rw [hkind] at h
      dsimp only at h
      rw [Scan.readRegister_cons] at h
      split at h
      · cases h
      · rename_i hnone
        obtain rfl := Except.error.inj (Prod.mk.inj h).1
        rw [List.length_append]
        exact describes_unknownRegister hword hnumber hquote hcolon hnone

theorem describes_of_readMnemonic {text : List Char} {last : Scan} (hne : text ≠ [])
    (hcolon : text.head? ≠ some ':')
    (h : Scan.readMnemonic Opcode.mnemonics (.between front text) = (.error e, last)) :
    e.Describes (front ++ text) front.length := by
  obtain ⟨hno, named, rfl, hnamed⟩ := Scan.readMnemonic_error h
  obtain ⟨c, rest, rfl⟩ := List.exists_cons_of_ne_nil hne
  refine ⟨rfl, by simp, ?_, c, by simp, fun heq => hcolon (congrArg some heq), ?_, ?_⟩
  · rwa [List.drop_left]
  · intro hterminator
    have hrun : ((c :: rest).takeWhile fun d => !isTerminator d) = [] := by
      simp [hterminator]
    rw [String.toList_ofList, hnamed, hrun]
    rfl
  · intro hterminator
    have hlongest := longestStart_takeWhile (fun d => !isTerminator d) (c :: rest)
    have hrun : ((c :: rest).takeWhile fun d => !isTerminator d).isEmpty = false := by
      simp [hterminator]
    rw [String.toList_ofList, hnamed, hrun, List.drop_left]
    simpa using hlongest

/-- What the error of a block that cannot be read says of the text in which the block stands. -/
theorem describes_of_readBlock {text : List Char} {last : Scan} (hne : text ≠ [])
    (h : Scan.readBlock (.between front text) = (.error e, last)) :
    e.Describes (front ++ text) front.length := by
  by_cases hcolon : text.head? = some ':'
  · obtain ⟨rest, rfl⟩ := List.head?_eq_some_iff.mp hcolon
    rw [Scan.readBlock_colon] at h
    obtain ⟨rfl, hno⟩ := Scan.readName_error (Scan.map_eq_error h)
    rw [List.length_append]
    exact describes_unclosedTag (Or.inl rfl) hno
  · rw [Scan.readBlock_of_head_ne front hcolon] at h
    rcases Scan.bind_eq_error h with hmnemonic | ⟨opcode, next, hmnemonic, hlater⟩
    · exact describes_of_readMnemonic hne hcolon hmnemonic
    · obtain ⟨word, tail, known, rfl, rfl⟩ := Scan.readMnemonic_sound front hmnemonic
      split at hlater
      · rename_i htakes
        rcases Scan.bind_eq_error hlater with hargument | ⟨argument, after, -, hfinish⟩
        · exact describes_of_readArgument ⟨_, known, rfl, htakes⟩ hargument
        · cases hfinish
      · cases hlater

end Block

namespace Scan

variable {s t : Scan} {blocks : List Block}

/-- Reading stops at a scan from which no block can be read, if there is an error, and else at the
end. -/
theorem reads_readMany (s : Scan) : ∃ t, s.Reads s.readMany.1 t ∧
    (∀ e, s.readMany.2 = some e → t.atEnd = false ∧ t.readBlock.1 = .error e) ∧
    (s.readMany.2 = none → t.atEnd = true) := by
  fun_induction readMany s with
  | case1 s hend => exact ⟨s, .done s, fun e he => by simp at he, fun _ => hend⟩
  | case2 s hend e t h =>
    refine ⟨s, .done s, fun e' he => ⟨Bool.eq_false_iff.mpr hend, ?_⟩,
      fun hnone => by simp at hnone⟩
    rw [h, Option.some.inj he]
  | case3 s hend block next h hlt ih =>
    obtain ⟨t, hreads, hstops⟩ := ih
    exact ⟨t, .block h hreads, hstops⟩

/-- Between the two scans stands the text of the blocks. -/
theorem Reads.spelled (h : s.Reads blocks t) {front text : List Char}
    (hs : s = .between front text) : ∃ (spelling : Spelling) (rest : List Char),
      text = spelling.text ++ rest ∧ blocks = spelling.blocks front.length ∧
        t = .between (front ++ spelling.text) rest := by
  induction h generalizing front text with
  | done s =>
    refine ⟨[], text, rfl, rfl, ?_⟩
    rw [hs]
    exact congrArg (Tape.between · text) (List.append_nil front).symm
  | block hblock hlater ih =>
    subst hs
    obtain ⟨b, rest, rfl, rfl, rfl⟩ := readBlock_sound front hblock
    obtain ⟨later, last, rfl, rfl, rfl⟩ := ih rfl
    refine ⟨b :: later, last, ?_, ?_, ?_⟩
    · rw [Spelling.text_cons, List.append_assoc]
    · rw [List.length_append]
      rfl
    · rw [Spelling.text_cons, List.append_assoc]

end Scan

theorem Block.ofSource_of_spelling {source : String} {spelling : Spelling}
    (h : Source.strip source = spelling.text) :
    Block.ofSource source = .ok (spelling.blocks 0) := by
  unfold Block.ofSource
  rw [Scan.readAll_eq_ok_iff]
  exact Scan.readMany_ofSource h

/-- A block that was read stands in the text at its position. -/
theorem exists_spelled_at {spelling : Spelling} {block : Block} {front : List Char}
    (h : block ∈ spelling.blocks front.length) (rest : List Char) :
    ∃ b : BlockSpelling, b.block block.position = block ∧
      b.text <+: (front ++ (spelling.text ++ rest)).drop block.position := by
  induction spelling generalizing front with
  | nil => cases h
  | cons b later ih =>
    have hposition := b.position_block front.length
    rcases List.mem_cons.mp h with rfl | hlater
    · refine ⟨b, by rw [hposition], ?_⟩
      rw [hposition, List.drop_left, Spelling.text_cons, List.append_assoc]
      exact List.prefix_append _ _
    · rw [← List.length_append] at hlater
      obtain ⟨d, hd, hstands⟩ := ih hlater
      refine ⟨d, hd, ?_⟩
      rwa [Spelling.text_cons, List.append_assoc, ← List.append_assoc]

theorem TagName.text_eq_tagText (n : TagName) : n.text = (tagText n.name).toList := by
  simp [TagName.text, tagText, TagName.name]

theorem tag_stands_at {spelling : Spelling} {name : String} {position : Nat}
    (h : .tag name position ∈ spelling.blocks 0) (rest : List Char) :
    (tagText name).toList <+: (spelling.text ++ rest).drop position := by
  obtain ⟨b, hb, hstands⟩ := @exists_spelled_at spelling _ [] h rest
  cases b with
  | tag n =>
    obtain ⟨rfl, -⟩ := Block.tag.inj hb
    rw [← n.text_eq_tagText]
    exact hstands
  | action word opcode known argument arity breakpoint separator => cases hb

theorem reference_stands_at {spelling : Spelling} {opcode : Opcode} {name : String}
    {breakpoint : Bool} {position : Nat}
    (h : .action opcode (some (.tag name)) breakpoint position ∈ spelling.blocks 0) :
    ∃ word, IsOperator word ∧ word ++ (tagText name).toList <+: spelling.text.drop position := by
  obtain ⟨b, hb, hstands⟩ := @exists_spelled_at spelling _ [] h []
  cases b with
  | tag n => cases hb
  | action word opcode' known argument arity breakpoint' separator =>
    obtain ⟨rfl, hargument, -⟩ := Block.action.inj hb
    obtain ⟨spelled, rfl, hspelled⟩ := Option.map_eq_some_iff.mp hargument
    cases spelled with
    | tag n =>
      obtain rfl := Argument.tag.inj hspelled
      refine ⟨word.toList, ⟨_, known, rfl, arity.symm⟩, ?_⟩
      rw [List.nil_append, List.append_nil] at hstands
      refine List.IsPrefix.trans ⟨optionalChar breakpoint' '*' ++ optionalChar separator ';', ?_⟩
        hstands
      rw [← n.text_eq_tagText, BlockSpelling.text, List.append_assoc]
      rfl
    | number n => cases hspelled
    | quoted c closing => cases hspelled
    | register r => cases hspelled

theorem definedAt_tagNames {blocks : List Block} {name : String} {index : Nat}
    (h : DefinedAt (Block.tagNames blocks) name index) :
    ∃ position, blocks[index]? = some (.tag name position) := by
  unfold DefinedAt Block.tagNames at h
  rw [List.getElem?_map] at h
  obtain ⟨block, hblock, hname⟩ := Option.map_eq_some_iff.mp h
  cases block with
  | tag name' position =>
    obtain rfl := Option.some.inj hname
    exact ⟨position, hblock⟩
  | action opcode argument breakpoint position => cases hname

theorem eq_action_of_reference {block : Block} {name : String} (h : block.reference? = some name) :
    ∃ opcode breakpoint, block = .action opcode (some (.tag name)) breakpoint block.position := by
  unfold Block.reference? at h
  split at h
  · obtain rfl := Option.some.inj h
    exact ⟨_, _, rfl⟩
  · cases h

theorem describes_malformed {source : String} {e : BlockError}
    (h : (Scan.ofSource source).readMany.2 = some e) :
    (AssemblyError.malformed e).Describes source := by
  obtain ⟨s, hreads, herror, -⟩ := (Scan.ofSource source).reads_readMany
  obtain ⟨hgoes, hfails⟩ := herror e h
  obtain ⟨spelling, rest, hsplit, hblocks, rfl⟩ := hreads.spelled (Tape.ofArray_toArray _)
  have hne : rest ≠ [] := by
    rintro rfl
    rw [Tape.atEnd_between] at hgoes
    cases hgoes
  refine ⟨_, _, hreads, hfails, ?_, ?_, ?_⟩
  · rw [hsplit, Tape.remaining_between, Tape.position_between, List.nil_append, List.drop_left]
  · have htake : (Source.strip source).take spelling.text.length = spelling.text := by
      rw [hsplit, List.take_left]
    rw [hblocks, Tape.position_between, List.nil_append]
    apply Block.ofSource_of_spelling
    rw [Source.strip_of_sublist (List.take_sublist _ _), htake]
  · rw [hsplit]
    exact describes_of_readBlock hne (Prod.ext hfails rfl)

theorem describes_duplicateTag {source name : String} {first second : Nat}
    (h : FirstRepeat (Block.tagNames (Scan.ofSource source).readMany.1) name first second) :
    (AssemblyError.duplicateTag name first second).Describes source := by
  obtain ⟨s, hreads, -⟩ := (Scan.ofSource source).reads_readMany
  obtain ⟨spelling, rest, hsplit, hblocks, -⟩ := hreads.spelled (Tape.ofArray_toArray _)
  refine ⟨_, s, hreads, h.lt, fun index hindex => ?_⟩
  have hdefined : DefinedAt (Block.tagNames (Scan.ofSource source).readMany.1) name index := by
    rcases hindex with rfl | rfl
    · exact h.first_defined
    · exact h.second_defined
  obtain ⟨position, hget⟩ := definedAt_tagNames hdefined
  refine ⟨position, hget, ?_⟩
  have hmem := List.mem_of_getElem? hget
  rw [hblocks] at hmem
  rw [hsplit]
  exact tag_stands_at hmem rest

theorem describes_undefinedTag {source name : String} {position : Nat}
    (hnone : (Scan.ofSource source).readMany.2 = none)
    (h : FirstUndefined (Scan.ofSource source).readMany.1 name position) :
    (AssemblyError.undefinedTag name position).Describes source := by
  obtain ⟨spelling, htext, hblocks⟩ := Scan.exists_spelling_of_readMany hnone
  rw [hblocks] at h
  obtain ⟨front, block, back, hsplit, hname, rfl, hmissing, -⟩ := h
  have hmem : block ∈ spelling.blocks 0 := by
    rw [hsplit]
    simp
  obtain ⟨opcode, breakpoint, hblock⟩ := eq_action_of_reference hname
  refine ⟨_, Block.ofSource_of_spelling htext, ⟨opcode, breakpoint, ?_⟩, fun place hplace => ?_, ?_⟩
  · rwa [← hblock]
  · obtain ⟨index, hindex⟩ := List.mem_iff_getElem?.mp hplace
    apply hmissing index
    unfold DefinedAt Block.tagNames
    rw [List.getElem?_map, hindex]
    rfl
  · rw [hblock] at hmem
    rw [htext]
    exact reference_stands_at hmem

theorem lt_length_of_stands {text named : List Char} {position : Nat} (hne : named ≠ [])
    (h : named <+: text.drop position) : position < text.length := by
  have hpos := List.length_pos_iff.mpr hne
  have hle := h.length_le
  rw [List.length_drop] at hle
  omega

theorem BlockError.Describes.position_le {text : List Char} {start : Nat} {e : BlockError}
    (h : e.Describes text start) : e.position ≤ text.length := by
  have hget {position : Nat} {c : Char} (hc : text[position]? = some c) : position < text.length :=
    (List.getElem?_eq_some_iff.mp hc).1
  cases e with
  | unknownMnemonic named position =>
    obtain ⟨rfl, hlt, -⟩ := h
    exact Nat.le_of_lt hlt
  | unknownRegister symbol position => exact Nat.le_of_lt (hget h.1)
  | unclosedTag position =>
    obtain ⟨colon, rfl, hcolon, -⟩ := h
    exact hget hcolon
  | badNumber named position =>
    obtain ⟨-, -, hlongest, hkind⟩ := h
    have hne : named.toList ≠ [] := by
      rcases hkind with rfl | ⟨negative, digits, hnamed, hdigits, -⟩
      · decide
      · rw [hnamed]
        exact List.append_ne_nil_of_right_ne_nil _ hdigits
    exact Nat.le_of_lt (lt_length_of_stands hne hlongest.starts)
  | endOfSource place => exact Nat.le_of_eq h.1

theorem BlockError.Describes.start_le {text : List Char} {start : Nat} {e : BlockError}
    (h : e.Describes text start) : start ≤ e.position := by
  cases e with
  | unknownMnemonic named position => exact Nat.le_of_eq h.1.symm
  | unknownRegister symbol position => exact h.2.2.2.1
  | badNumber named position => exact h.1
  | unclosedTag position =>
    obtain ⟨colon, rfl, -, hcolon, -⟩ := h
    have hle : start ≤ colon := by
      rcases hcolon with rfl | ⟨hle, -⟩
      · exact Nat.le_refl _
      · exact hle
    exact Nat.le_succ_of_le hle
  | endOfSource place =>
    obtain ⟨hindex, -, word, tail, hdrop, ⟨entry, hentry, rfl, -⟩, -⟩ := h
    have hlt := lt_length_of_stands (mnemonic_ne_nil hentry) ⟨tail, hdrop.symm⟩
    change start ≤ place.index
    omega

/-- The position that an error gives lies in the text, or right behind it. -/
theorem AssemblyError.Describes.position_le {source : String} {e : AssemblyError}
    (h : e.Describes source) {position : Nat} (hposition : e.position? = some position) :
    position ≤ (Source.strip source).length := by
  cases e with
  | malformed e =>
    obtain ⟨blocks, s, -, -, -, -, hdescribes⟩ := h
    rw [← Option.some.inj hposition]
    exact hdescribes.position_le
  | duplicateTag name first second => cases hposition
  | undefinedTag name place =>
    obtain ⟨blocks, -, -, -, word, ⟨⟨mnemonic, opcode⟩, known, rfl, -⟩, hstands⟩ := h
    obtain rfl := Option.some.inj hposition
    have hne := List.append_ne_nil_of_left_ne_nil (mnemonic_ne_nil known) (tagText name).toList
    exact Nat.le_of_lt (lt_length_of_stands hne hstands)

/-- Every error of assembly describes what stands in the source at the place that it gives. -/
theorem assemble_error_describes_source {source : String} {e : AssemblyError}
    (h : assemble source = .error e) : e.Describes source ∧
      ∀ position, e.position? = some position → position ≤ (Source.strip source).length := by
  have hdescribes : e.Describes source := by
    have hverdict := verdict_assemble source
    rw [h] at hverdict
    cases hverdict with
    | duplicate again => exact describes_duplicateTag again
    | malformed distinct failed => exact describes_malformed failed
    | undefined distinct complete missing => exact describes_undefinedTag complete missing
  exact ⟨hdescribes, fun position hposition => hdescribes.position_le hposition⟩

theorem assemble_error_describes_three :
    (assemble "oc; acc -9223372036854775809" =
        .error (.malformed (.badNumber "-9223372036854775809" 6)) ∧
      (AssemblyError.malformed (.badNumber "-9223372036854775809" 6)).Describes
        "oc; acc -9223372036854775809") ∧
    (assemble ":a: push '#" = .error (.malformed (.endOfSource ⟨9, 9⟩)) ∧
      (AssemblyError.malformed (.endOfSource ⟨9, 9⟩)).Describes ":a: push '#") ∧
    (assemble "nop* jgz :b: :a:" = .error (.undefinedTag "b" 4) ∧
      (AssemblyError.undefinedTag "b" 4).Describes "nop* jgz :b: :a:") := by
  have hnumber : assemble "oc; acc -9223372036854775809" =
      .error (.malformed (.badNumber "-9223372036854775809" 6)) := by decide +kernel
  have hquote : assemble ":a: push '#" = .error (.malformed (.endOfSource ⟨9, 9⟩)) := by
    decide +kernel
  have hreference : assemble "nop* jgz :b: :a:" = .error (.undefinedTag "b" 4) := by
    decide +kernel
  exact ⟨⟨hnumber, (assemble_error_describes_source hnumber).1⟩,
    ⟨hquote, (assemble_error_describes_source hquote).1⟩,
    ⟨hreference, (assemble_error_describes_source hreference).1⟩⟩

end AccumulatorMachine
