import AccumulatorMachine.Proofs.MnemonicReading
import AccumulatorMachine.Proofs.Spelling
import Mathlib.Data.List.TakeWhile

/-!
Reading accepts exactly what is spelled. Each reader has two lemmas: on the text of a spelling with
a quiet rest it returns what is spelled and stops at the rest, and what it returns on any text is
spelled there.
-/
namespace AccumulatorMachine

theorem exists_of_map_eq_ok {ε α β : Type} {f : α → β} {x : Except ε α} {b : β}
    (h : x.map f = .ok b) : ∃ a, x = .ok a ∧ f a = b := by
  cases x with
  | error e => cases h
  | ok a => exact ⟨a, rfl, Except.ok.inj h⟩

namespace Scan

variable (front : List Char)

theorem readChar_cons (c : Char) (rest : List Char) :
    readChar (.between front (c :: rest)) = (.ok c, .between (front ++ [c]) rest) := by
  unfold readChar
  rw [Tape.read_between_cons]

theorem readChar_nil : readChar (.between front []) =
    (.error (.endOfSource ⟨front.length, front.length⟩), .between front []) := by
  unfold readChar
  rw [Tape.read_between_nil]

theorem skipChar_cons (c : Char) (rest : List Char) :
    skipChar c (.between front (c :: rest)) = (true, .between (front ++ [c]) rest) := by
  unfold skipChar
  rw [Tape.peek?_between, readChar_cons]
  exact if_pos rfl

theorem skipChar_of_head_ne {c : Char} {text : List Char} (h : text.head? ≠ some c) :
    skipChar c (.between front text) = (false, .between front text) := by
  unfold skipChar
  rw [Tape.peek?_between, if_neg h]

/-- A name is read up to the first colon, and with it. -/
theorem readName_chars (n : TagName) (rest : List Char) :
    readName (.between front (n.chars ++ ':' :: rest)) =
      (.ok n.name, .between (front ++ (n.chars ++ [':'])) rest) := by
  have hdrop : (n.chars ++ ':' :: rest).dropWhile (· != ':') = ':' :: rest := by
    have hparts := List.takeWhile_append_dropWhile (p := (· != ':')) (l := n.chars ++ ':' :: rest)
    rw [n.takeWhile_chars] at hparts
    exact List.append_cancel_left hparts
  unfold readName
  rw [Tape.readWhile_between, n.takeWhile_chars, hdrop]
  dsimp only
  rw [Tape.read_between_cons, List.append_assoc]
  rfl

theorem readName_append (n : TagName) (rest : List Char) :
    readName (.between (front ++ [':']) (n.chars ++ ':' :: rest)) =
      (.ok n.name, .between (front ++ n.text) rest) := by
  rw [readName_chars, List.append_assoc]
  rfl

theorem readName_of_no_colon {text : List Char} (h : ':' ∉ text) :
    readName (.between front text) =
      (.error (.unclosedTag front.length), .between (front ++ text) []) := by
  have hall : ∀ c ∈ text, (c != ':') = true := by
    intro c hc
    have hne : c ≠ ':' := fun heq => h (heq ▸ hc)
    simpa using hne
  unfold readName
  rw [Tape.readWhile_between, List.takeWhile_eq_self_iff.mpr hall,
    List.dropWhile_eq_nil_iff.mpr hall]
  dsimp only
  rw [Tape.read_between_nil]
  rfl

theorem readName_sound {text : List Char} {t : Scan} {name : String}
    (h : readName (.between (front ++ [':']) text) = (.ok name, t)) :
    ∃ (n : TagName) (rest : List Char), n.name = name ∧ ':' :: text = n.text ++ rest ∧
      t = .between (front ++ n.text) rest := by
  by_cases hcolon : ':' ∈ text
  · obtain ⟨chars, rest, rfl, hno⟩ := List.eq_append_cons_of_mem hcolon
    have hread := readName_append front ⟨chars, hno⟩ rest
    obtain ⟨hname, ht⟩ := Prod.mk.inj (hread.symm.trans h)
    refine ⟨⟨chars, hno⟩, rest, Except.ok.inj hname, ?_, ht.symm⟩
    rw [TagName.text_append]
  · rw [readName_of_no_colon _ hcolon] at h
    cases h

theorem numberText_of_head_ne {text : List Char} (h : text.head? ≠ some '-') :
    numberText text = text.takeWhile Char.isDigit := by
  unfold numberText
  split
  · exact absurd rfl h
  · rfl

/-- A number is read to the end of the longest text that has the form of one. -/
theorem readNumber_between (text : List Char) : ∃ rest, text = numberText text ++ rest ∧
    readNumber (.between front text) = match Decimal.word? (numberText text) with
      | some value => (.ok (.literal value), .between (front ++ numberText text) rest)
      | none => (.error (.badNumber (String.ofList (numberText text)) front.length),
          .between (front ++ numberText text) rest) := by
  by_cases hsign : text.head? = some '-'
  · obtain ⟨later, rfl⟩ := List.head?_eq_some_iff.mp hsign
    refine ⟨later.dropWhile Char.isDigit, ?_, ?_⟩
    · change '-' :: later = '-' :: (later.takeWhile Char.isDigit ++ later.dropWhile Char.isDigit)
      rw [List.takeWhile_append_dropWhile]
    · unfold readNumber
      rw [skipChar_cons]
      dsimp only
      rw [Tape.readWhile_between]
      dsimp only
      rw [if_pos rfl, List.append_assoc]
      rfl
  · refine ⟨text.dropWhile Char.isDigit, ?_, ?_⟩
    · rw [numberText_of_head_ne hsign, List.takeWhile_append_dropWhile]
    · unfold readNumber
      rw [skipChar_of_head_ne front hsign]
      dsimp only
      rw [Tape.readWhile_between, numberText_of_head_ne hsign]
      rfl

theorem readNumber_append (n : Decimal.Numeral) {rest : List Char}
    (hrest : ∀ c ∈ rest.head?, c.isDigit = false) :
    readNumber (.between front (n.text ++ rest)) =
      (.ok (.literal n.word), .between (front ++ n.text) rest) := by
  obtain ⟨later, htext, hread⟩ := readNumber_between front (n.text ++ rest)
  rw [Decimal.numberText_append n hrest] at htext hread
  rw [hread, Decimal.word?_text, List.append_cancel_left htext]

theorem readNumber_sound {text : List Char} {t : Scan} {argument : Argument}
    (h : readNumber (.between front text) = (.ok argument, t)) :
    ∃ (n : Decimal.Numeral) (rest : List Char), .literal n.word = argument ∧
      text = n.text ++ rest ∧ t = .between (front ++ n.text) rest := by
  obtain ⟨rest, htext, hread⟩ := readNumber_between front text
  rw [hread] at h
  split at h
  · rename_i value hvalue
    obtain ⟨hargument, ht⟩ := Prod.mk.inj h
    obtain ⟨n, hn, rfl⟩ := Decimal.exists_numeral_of_word? hvalue
    rw [← hn] at htext ht
    exact ⟨n, rest, Except.ok.inj hargument, htext, ht.symm⟩
  · cases h

theorem readQuoted_append (opening c closing : Char) (rest : List Char) :
    readQuoted (.between front (opening :: c :: closing :: rest)) =
      (.ok (.literal (Int64.ofNat c.toNat)), .between (front ++ [opening, c, closing]) rest) := by
  unfold readQuoted
  rw [readChar_cons]
  dsimp only [Reading.bind]
  rw [readChar_cons]
  dsimp only [Reading.bind]
  rw [readChar_cons]
  simp [Reading.map, Except.map]

theorem readRegister_cons (c : Char) (rest : List Char) :
    readRegister (.between front (c :: rest)) = match Register.ofSymbol? c with
      | some r => (.ok (.register r), .between (front ++ [c]) rest)
      | none => (.error (.unknownRegister c front.length), .between (front ++ [c]) rest) := by
  unfold readRegister
  rw [readChar_cons]
  rfl

/-- The first character of an argument tells which reader goes on. -/
theorem readArgument_cons (c : Char) (rest : List Char) :
    readArgument (.between front (c :: rest)) = match ArgumentKind.ofChar c with
      | .number => readNumber (.between front (c :: rest))
      | .quoted => readQuoted (.between front (c :: rest))
      | .tag => (readName (.between (front ++ [c]) rest)).map .tag
      | .register => readRegister (.between front (c :: rest)) := by
  unfold readArgument ArgumentKind.ofChar
  rw [Tape.peek?_between, List.head?_cons, Option.any_some, readChar_cons]
  split
  · rfl
  · simp only [Option.some.injEq]
    split
    · rfl
    · split
      · rfl
      · rfl

theorem readArgument_nil : readArgument (.between front []) =
    (.error (.endOfSource ⟨front.length, front.length⟩), .between front []) := by
  unfold readArgument readRegister
  rw [Tape.peek?_between, readChar_nil]
  rfl

theorem readArgument_append (a : ArgumentSpelling) {rest : List Char}
    (hrest : ∀ c ∈ rest.head?, c.isDigit = false) :
    readArgument (.between front (a.text ++ rest)) =
      (.ok a.argument, .between (front ++ a.text) rest) := by
  obtain ⟨c, hc, hkind⟩ := a.head?_text
  obtain ⟨tail, htail⟩ := List.head?_eq_some_iff.mp hc
  rw [htail, List.cons_append, readArgument_cons, hkind, ← List.cons_append, ← htail]
  cases a with
  | number n => exact readNumber_append front n hrest
  | quoted c closing => exact readQuoted_append front '\'' c closing rest
  | tag n =>
    obtain ⟨rfl, rfl⟩ := List.cons.inj htail
    change (readName (.between (front ++ [':']) (n.chars ++ [':'] ++ rest))).map Argument.tag = _
    rw [List.append_assoc, List.singleton_append, readName_append]
    rfl
  | register r =>
    change readRegister (.between front (r.symbol :: rest)) = _
    rw [readRegister_cons, Register.ofSymbol?_symbol]
    rfl

theorem map_eq_ok {α β : Type} {f : α → β} {reading : Reading α} {value : β} {t : Scan}
    (h : reading.map f = (.ok value, t)) : ∃ first, reading = (.ok first, t) ∧ f first = value := by
  obtain ⟨hmap, ht⟩ := Prod.mk.inj h
  obtain ⟨first, hfirst, hvalue⟩ := exists_of_map_eq_ok hmap
  exact ⟨first, Prod.ext hfirst ht, hvalue⟩

theorem readChar_sound {text : List Char} {t : Scan} {c : Char}
    (h : readChar (.between front text) = (.ok c, t)) :
    ∃ rest, text = c :: rest ∧ t = .between (front ++ [c]) rest := by
  cases text with
  | nil =>
    rw [readChar_nil] at h
    cases h
  | cons d rest =>
    rw [readChar_cons] at h
    obtain ⟨hchar, ht⟩ := Prod.mk.inj h
    obtain rfl := Except.ok.inj hchar
    exact ⟨rest, rfl, ht.symm⟩

theorem readQuoted_sound {text : List Char} {t : Scan} {argument : Argument}
    (h : readQuoted (.between front text) = (.ok argument, t)) :
    ∃ (opening c closing : Char) (rest : List Char),
      Argument.literal (Int64.ofNat c.toNat) = argument ∧
      text = opening :: c :: closing :: rest ∧
      t = .between (front ++ [opening, c, closing]) rest := by
  obtain ⟨opening, opened, hopening, hlater⟩ := bind_eq_ok h
  obtain ⟨inner, rfl, rfl⟩ := readChar_sound front hopening
  obtain ⟨c, quoted, hc, hlast⟩ := bind_eq_ok hlater
  obtain ⟨tail, rfl, rfl⟩ := readChar_sound _ hc
  obtain ⟨closing, hclosing, hargument⟩ := map_eq_ok hlast
  obtain ⟨rest, rfl, rfl⟩ := readChar_sound _ hclosing
  refine ⟨opening, c, closing, rest, hargument, rfl, ?_⟩
  simp

theorem readArgument_sound {text : List Char} {t : Scan} {argument : Argument}
    (h : readArgument (.between front text) = (.ok argument, t)) :
    ∃ (a : ArgumentSpelling) (rest : List Char), a.argument = argument ∧
      text = a.text ++ rest ∧ t = .between (front ++ a.text) rest := by
  cases text with
  | nil =>
    rw [readArgument_nil] at h
    cases h
  | cons c tail =>
    rw [readArgument_cons] at h
    rcases ArgumentKind.ofChar_cases c with ⟨-, hkind⟩ | ⟨rfl, hkind⟩ | ⟨rfl, hkind⟩ | ⟨-, hkind⟩
    · rw [hkind] at h
      obtain ⟨n, rest, hargument, htext, ht⟩ := readNumber_sound front h
      exact ⟨.number n, rest, hargument, htext, ht⟩
    · rw [hkind] at h
      obtain ⟨opening, d, closing, rest, hargument, htext, ht⟩ := readQuoted_sound front h
      obtain ⟨rfl, -⟩ := List.cons.inj htext
      exact ⟨.quoted d closing, rest, hargument, htext, ht⟩
    · rw [hkind] at h
      obtain ⟨name, hname, hargument⟩ := map_eq_ok h
      obtain ⟨n, rest, rfl, htext, ht⟩ := readName_sound front hname
      exact ⟨.tag n, rest, hargument, htext, ht⟩
    · rw [hkind] at h
      dsimp only at h
      rw [readRegister_cons] at h
      split at h
      · rename_i r hr
        obtain ⟨hargument, ht⟩ := Prod.mk.inj h
        obtain rfl := Register.symbol_of_ofSymbol? hr
        exact ⟨.register r, tail, Except.ok.inj hargument, rfl, ht.symm⟩
      · cases h

theorem readMnemonic_append {word : String} {opcode : Opcode}
    (known : (word, opcode) ∈ Opcode.mnemonics.entries) (rest : List Char) :
    readMnemonic Opcode.mnemonics (.between front (word.toList ++ rest)) =
      (.ok opcode, .between (front ++ word.toList) rest) := by
  have hlongest : Opcode.mnemonics.IsLongest (word, opcode) (word.toList ++ rest) := by
    refine ⟨known, List.prefix_append _ _, fun other hother hprefix => ?_⟩
    have heq := mnemonic_eq_of_prefix hother known hprefix (List.prefix_append _ rest)
    rw [heq]
  rw [readMnemonic_of_isLongest Opcode.mnemonics_readable hlongest, ← String.length_toList,
    List.drop_left]

theorem readMnemonic_sound {text : List Char} {t : Scan} {opcode : Opcode}
    (h : readMnemonic Opcode.mnemonics (.between front text) = (.ok opcode, t)) :
    ∃ (word : String) (rest : List Char), (word, opcode) ∈ Opcode.mnemonics.entries ∧
      text = word.toList ++ rest ∧ t = .between (front ++ word.toList) rest := by
  cases hbest : (readAhead Opcode.mnemonics [] none (.between front text)).best with
  | none =>
    rw [readMnemonic_of_best_none hbest] at h
    cases h
  | some m =>
    rw [readMnemonic_of_best hbest] at h
    obtain ⟨hopcode, ht⟩ := Prod.mk.inj h
    obtain ⟨word, hvalue, hlength, rest, rfl⟩ := exists_word_of_readAhead hbest
    refine ⟨String.ofList word, rest, ?_, ?_, ?_⟩
    · rw [← Except.ok.inj hopcode]
      exact MnemonicTable.mem_entries_of_find? hvalue
    · rw [String.toList_ofList]
    · rw [String.toList_ofList, ← ht, hlength, List.take_left, List.drop_left]

theorem skipChar_optionalChar (present : Bool) {c : Char} {rest : List Char}
    (hrest : rest.head? ≠ some c) :
    skipChar c (.between front (optionalChar present c ++ rest)) =
      (present, .between (front ++ optionalChar present c) rest) := by
  cases present with
  | true => exact skipChar_cons front c rest
  | false =>
    change skipChar c (.between front rest) = (false, .between (front ++ []) rest)
    rw [skipChar_of_head_ne front hrest, List.append_nil]

theorem skipChar_sound (c : Char) (text : List Char) : ∃ (present : Bool) (rest : List Char),
    text = optionalChar present c ++ rest ∧
      skipChar c (.between front text) =
        (present, .between (front ++ optionalChar present c) rest) := by
  by_cases hc : text.head? = some c
  · obtain ⟨rest, rfl⟩ := List.head?_eq_some_iff.mp hc
    exact ⟨true, rest, rfl, skipChar_cons front c rest⟩
  · exact ⟨false, text, rfl, skipChar_optionalChar front false hc⟩

theorem finishAction_append (opcode : Opcode) (argument : Option Argument) (start : Nat)
    (breakpoint separator : Bool) {rest : List Char} (hrest : Quiet rest) :
    finishAction
        (.between front (optionalChar breakpoint '*' ++ optionalChar separator ';' ++ rest))
        opcode argument start =
      (.ok (.action opcode argument breakpoint start),
        .between (front ++ (optionalChar breakpoint '*' ++ optionalChar separator ';')) rest) := by
  unfold finishAction
  rw [List.append_assoc, skipChar_optionalChar front breakpoint (hrest.head?_ne_star separator)]
  dsimp only
  rw [skipChar_optionalChar _ separator hrest.head?_ne_semicolon, List.append_assoc]

theorem finishAction_sound {text : List Char} {t : Scan} {opcode : Opcode}
    {argument : Option Argument} {start : Nat} {block : Block}
    (h : finishAction (.between front text) opcode argument start = (.ok block, t)) :
    ∃ (breakpoint separator : Bool) (rest : List Char),
      block = .action opcode argument breakpoint start ∧
      text = optionalChar breakpoint '*' ++ optionalChar separator ';' ++ rest ∧
      t = .between (front ++ (optionalChar breakpoint '*' ++ optionalChar separator ';')) rest := by
  obtain ⟨breakpoint, middle, rfl, hstar⟩ := skipChar_sound front '*' text
  obtain ⟨separator, rest, rfl, hsemicolon⟩ :=
    skipChar_sound (front ++ optionalChar breakpoint '*') ';' middle
  unfold finishAction at h
  rw [hstar] at h
  dsimp only at h
  rw [hsemicolon] at h
  obtain ⟨hblock, ht⟩ := Prod.mk.inj h
  refine ⟨breakpoint, separator, rest, (Except.ok.inj hblock).symm, ?_, ?_⟩
  · rw [List.append_assoc]
  · rw [← ht, List.append_assoc]

theorem readBlock_colon (rest : List Char) : readBlock (.between front (':' :: rest)) =
    (readName (.between (front ++ [':']) rest)).map fun name => .tag name front.length := by
  unfold readBlock
  rw [Tape.peek?_between, readChar_cons]
  rfl

theorem readBlock_of_head_ne {text : List Char} (hcolon : text.head? ≠ some ':') :
    readBlock (.between front text) =
      (readMnemonic Opcode.mnemonics (.between front text)).bind fun opcode next =>
        if opcode.takesOperand then
          next.readArgument.bind fun argument last =>
            last.finishAction opcode (some argument) front.length
        else next.finishAction opcode none front.length := by
  unfold readBlock
  rw [Tape.peek?_between, if_neg hcolon]
  rfl

/-- A tag definition ends with its second colon, whatever stands behind it. -/
theorem readBlock_tag_append (n : TagName) (rest : List Char) :
    readBlock (.between front (n.text ++ rest)) =
      (.ok (.tag n.name front.length), .between (front ++ n.text) rest) := by
  rw [TagName.text_append, readBlock_colon, readName_append]
  rfl

theorem readBlock_append (b : BlockSpelling) {rest : List Char} (hrest : Quiet rest) :
    readBlock (.between front (b.text ++ rest)) =
      (.ok (b.block front.length), .between (front ++ b.text) rest) := by
  cases b with
  | tag n => exact readBlock_tag_append front n rest
  | action word opcode known argument arity breakpoint separator =>
    have hcolon (tail : List Char) : (word.toList ++ tail).head? ≠ some ':' := by
      obtain ⟨c, hc, hne, -⟩ := mnemonic_start _ known
      rw [List.head?_append_of_ne_nil _ (mnemonic_ne_nil known), hc]
      exact fun heq => hne (Option.some.inj heq)
    rw [BlockSpelling.text, List.append_assoc, BlockSpelling.tailText_append,
      readBlock_of_head_ne front (hcolon _), readMnemonic_append front known]
    dsimp only [Reading.bind]
    cases argument with
    | none =>
      have htakes : opcode.takesOperand = false := arity.symm
      rw [htakes, if_neg Bool.false_ne_true]
      change finishAction (.between (front ++ word.toList) (optionalChar breakpoint '*' ++
        optionalChar separator ';' ++ rest)) opcode none front.length = _
      rw [finishAction_append _ opcode none front.length breakpoint separator hrest,
        List.append_assoc]
      rfl
    | some spelled =>
      have htakes : opcode.takesOperand = true := arity.symm
      have hargument := readArgument_append (front ++ word.toList) spelled
        (no_digit_marks_append breakpoint separator hrest)
      rw [htakes, if_pos rfl]
      change Reading.bind (readArgument (.between (front ++ word.toList) (spelled.text ++
        (optionalChar breakpoint '*' ++ optionalChar separator ';' ++ rest)))) _ = _
      rw [hargument]
      dsimp only [Reading.bind]
      rw [finishAction_append _ opcode _ front.length breakpoint separator hrest,
        List.append_assoc, List.append_assoc]
      rfl

/-- A block can start with a colon or with a mnemonic only. What else it starts with is named: the
character itself if it is a terminator, and else all characters up to the first one. -/
theorem readBlock_unknown {c : Char} (hcolon : c ≠ ':')
    (hstart : ∀ entry ∈ Opcode.mnemonics.entries, entry.1.toList.head? ≠ some c)
    (rest : List Char) : ∃ t, readBlock (.between front (c :: rest)) =
      (.error (.unknownMnemonic (String.ofList (if isTerminator c then [c]
        else (c :: rest).takeWhile fun d => !isTerminator d)) front.length), t) := by
  have hnone : ∀ entry ∈ Opcode.mnemonics.entries, ¬entry.1.toList <+: c :: rest := by
    rintro entry hentry ⟨tail, htail⟩
    apply hstart entry hentry
    rw [← List.head?_append_of_ne_nil _ (mnemonic_ne_nil hentry), htail]
    rfl
  have hhead : (c :: rest).head? ≠ some ':' := fun heq => hcolon (Option.some.inj heq)
  rw [readBlock_of_head_ne front hhead, readMnemonic_of_none hnone]
  dsimp only [Reading.bind]
  cases hc : isTerminator c with
  | true => simp [hc]
  | false => simp [hc]

/-- The three ways in which a block is read. -/
theorem readBlock_cases {text : List Char} {t : Scan} {block : Block}
    (h : readBlock (.between front text) = (.ok block, t)) :
    (∃ rest name, text = ':' :: rest ∧ block = .tag name front.length ∧
      readName (.between (front ++ [':']) rest) = (.ok name, t)) ∨
    ∃ opcode next, readMnemonic Opcode.mnemonics (.between front text) = (.ok opcode, next) ∧
      ((opcode.takesOperand = false ∧
        next.finishAction opcode none front.length = (.ok block, t)) ∨
      (opcode.takesOperand = true ∧ ∃ argument last, next.readArgument = (.ok argument, last) ∧
        last.finishAction opcode (some argument) front.length = (.ok block, t))) := by
  by_cases hcolon : text.head? = some ':'
  · obtain ⟨rest, rfl⟩ := List.head?_eq_some_iff.mp hcolon
    rw [readBlock_colon] at h
    obtain ⟨name, hname, hblock⟩ := map_eq_ok h
    exact Or.inl ⟨rest, name, rfl, hblock.symm, hname⟩
  · right
    rw [readBlock_of_head_ne front hcolon] at h
    obtain ⟨opcode, next, hmnemonic, hlater⟩ := bind_eq_ok h
    refine ⟨opcode, next, hmnemonic, ?_⟩
    split at hlater
    · rename_i htakes
      obtain ⟨argument, last, hargument, hlast⟩ := bind_eq_ok hlater
      exact Or.inr ⟨htakes, argument, last, hargument, hlast⟩
    · rename_i htakes
      exact Or.inl ⟨Bool.eq_false_iff.mpr htakes, hlater⟩

theorem readBlock_sound {text : List Char} {t : Scan} {block : Block}
    (h : readBlock (.between front text) = (.ok block, t)) :
    ∃ (b : BlockSpelling) (rest : List Char), b.block front.length = block ∧
      text = b.text ++ rest ∧ t = .between (front ++ b.text) rest := by
  rcases readBlock_cases front h with ⟨tail, name, rfl, rfl, hname⟩ |
    ⟨opcode, next, hmnemonic, hbare | happlied⟩
  · obtain ⟨n, rest, rfl, htext, ht⟩ := readName_sound front hname
    exact ⟨.tag n, rest, rfl, htext, ht⟩
  · obtain ⟨word, tail, known, rfl, rfl⟩ := readMnemonic_sound front hmnemonic
    obtain ⟨htakes, hfinish⟩ := hbare
    obtain ⟨breakpoint, separator, rest, rfl, rfl, rfl⟩ := finishAction_sound _ hfinish
    refine ⟨.action word opcode known none htakes.symm breakpoint separator, rest, rfl, ?_, ?_⟩
    · simp [BlockSpelling.text, BlockSpelling.tailText]
    · simp [BlockSpelling.text, BlockSpelling.tailText]
  · obtain ⟨htakes, argument, last, hargument, hfinish⟩ := happlied
    obtain ⟨word, tail, known, rfl, rfl⟩ := readMnemonic_sound front hmnemonic
    obtain ⟨spelled, after, rfl, rfl, rfl⟩ := readArgument_sound _ hargument
    obtain ⟨breakpoint, separator, rest, rfl, rfl, rfl⟩ := finishAction_sound _ hfinish
    refine ⟨.action word opcode known (some spelled) htakes.symm breakpoint separator, rest, rfl,
      ?_, ?_⟩
    · simp [BlockSpelling.text, BlockSpelling.tailText]
    · simp [BlockSpelling.text, BlockSpelling.tailText]

/-- The blocks that are read before the first error or the end, and that error. -/
def readMany (s : Scan) : List Block × Option BlockError :=
  if s.atEnd then ([], none)
  else match h : s.readBlock with
    | (.error e, _) => ([], some e)
    | (.ok block, next) =>
      have := left_of_readBlock h
      (block :: next.readMany.1, next.readMany.2)
termination_by s.size - s.position
decreasing_by all_goals assumption

theorem readMany_of_end {s : Scan} (h : s.atEnd = true) : s.readMany = ([], none) := by
  rw [readMany, if_pos h]

theorem readMany_of_ok {s t : Scan} {block : Block} (h : s.readBlock = (.ok block, t)) :
    s.readMany = (block :: t.readMany.1, t.readMany.2) := by
  have hend : ¬s.atEnd = true := by
    intro hend
    have hlt := left_of_readBlock h
    rw [(Tape.atEnd_iff s).mp hend, Nat.sub_self] at hlt
    exact Nat.not_lt_zero _ hlt
  rw [readMany, if_neg hend]
  split
  · rename_i heq
    rw [heq] at h
    cases h
  · rename_i heq
    rw [heq] at h
    obtain ⟨hblock, rfl⟩ := Prod.mk.inj h
    obtain rfl := Except.ok.inj hblock
    rfl

theorem readMany_of_error {s t : Scan} {e : BlockError} (hend : ¬s.atEnd = true)
    (h : s.readBlock = (.error e, t)) : s.readMany = ([], some e) := by
  rw [readMany, if_neg hend]
  split
  · rename_i heq
    rw [heq] at h
    rw [Except.error.inj (Prod.mk.inj h).1]
  · rename_i heq
    rw [heq] at h
    cases h

theorem readAll_eq (s : Scan) : s.readAll = match s.readMany.2 with
    | some e => .error e
    | none => .ok s.readMany.1 := by
  fun_induction readAll s with
  | case1 s hend => rw [readMany_of_end hend]
  | case2 s hend e t h => rw [readMany_of_error hend h]
  | case3 s hend block next h hlt ih =>
    rw [ih, readMany_of_ok h]
    cases next.readMany.2 with
    | some e => rfl
    | none => rfl

theorem readAll_eq_ok_iff {s : Scan} {blocks : List Block} :
    s.readAll = .ok blocks ↔ s.readMany = (blocks, none) := by
  rw [readAll_eq]
  obtain ⟨found, error?⟩ := s.readMany
  cases error? with
  | some e => simp
  | none => simp

/-- Blocks that are spelled are read, whatever can be read behind them. -/
theorem readMany_append (spelling : Spelling) {rest : List Char} (hrest : Quiet rest) :
    readMany (.between front (spelling.text ++ rest)) =
      (spelling.blocks front.length ++ (readMany (.between (front ++ spelling.text) rest)).1,
        (readMany (.between (front ++ spelling.text) rest)).2) := by
  induction spelling generalizing front with
  | nil =>
    change readMany (.between front rest) = _
    rw [show front ++ Spelling.text [] = front from List.append_nil front]
    rfl
  | cons b later ih =>
    have hquiet : Quiet (Spelling.text later ++ rest) := by
      cases later with
      | nil => exact hrest
      | cons d more =>
        rw [Spelling.text_cons, List.append_assoc]
        exact d.quiet_text_append _
    have hread := readBlock_append front b hquiet
    rw [Spelling.text_cons, List.append_assoc, readMany_of_ok hread, ih, List.append_assoc,
      List.length_append]
    rfl

theorem readMany_sound (s : Scan) : ∃ (spelling : Spelling) (rest : List Char),
    s.remaining = spelling.text ++ rest ∧ s.readMany.1 = spelling.blocks s.position ∧
      (s.readMany.2 = none → rest = []) := by
  fun_induction readMany s with
  | case1 s hend =>
    obtain ⟨front, text, rfl⟩ := s.exists_between
    rw [Tape.atEnd_between] at hend
    obtain rfl := List.isEmpty_iff.mp hend
    exact ⟨[], [], Tape.remaining_between front [], rfl, fun _ => rfl⟩
  | case2 s hend e t h => exact ⟨[], s.remaining, rfl, rfl, fun hnone => nomatch hnone⟩
  | case3 s hend block next h hlt ih =>
    obtain ⟨front, text, rfl⟩ := s.exists_between
    obtain ⟨b, tail, rfl, rfl, rfl⟩ := readBlock_sound front h
    obtain ⟨later, rest, hrest, hblocks, hnone⟩ := ih
    rw [Tape.remaining_between] at hrest ⊢
    refine ⟨b :: later, rest, ?_, ?_, hnone⟩
    · rw [hrest, Spelling.text_cons, List.append_assoc]
    · rw [hblocks, Tape.position_between, Tape.position_between, List.length_append]
      rfl

/-- A source whose stripped text is spelled is read to its end. -/
theorem readMany_ofSource {source : String} {spelling : Spelling}
    (h : Source.strip source = spelling.text) :
    (Scan.ofSource source).readMany = (spelling.blocks 0, none) := by
  have hread := readMany_append [] spelling quiet_nil
  rw [List.append_nil, List.nil_append, ← h] at hread
  unfold ofSource
  rw [Tape.ofArray_toArray, hread, readMany_of_end (Tape.atEnd_between _ []), List.append_nil]
  rfl

theorem exists_spelling_of_readMany {source : String}
    (h : (Scan.ofSource source).readMany.2 = none) : ∃ spelling : Spelling,
      Source.strip source = spelling.text ∧
        (Scan.ofSource source).readMany.1 = spelling.blocks 0 := by
  obtain ⟨spelling, rest, htext, hblocks, hnone⟩ := (Scan.ofSource source).readMany_sound
  rw [hnone h, List.append_nil] at htext
  exact ⟨spelling, htext, hblocks⟩

end Scan

/-- Reading a source gives blocks if and only if its stripped text spells them; and no text has two
spellings. -/
theorem Block.ofSource_accepts_exactly_spellings :
    (∀ (source : String) (blocks : List Block), Block.ofSource source = .ok blocks ↔
      ∃ spelling : Spelling, Source.strip source = spelling.text ∧
        blocks = spelling.blocks 0) ∧
    Function.Injective Spelling.text := by
  refine ⟨fun source blocks => ?_, fun a b => Spelling.text_inj⟩
  unfold Block.ofSource
  rw [Scan.readAll_eq_ok_iff]
  constructor
  · intro h
    obtain ⟨spelling, htext, hblocks⟩ := Scan.exists_spelling_of_readMany (congrArg Prod.snd h)
    rw [h] at hblocks
    exact ⟨spelling, htext, hblocks⟩
  · rintro ⟨spelling, htext, rfl⟩
    exact Scan.readMany_ofSource htext

end AccumulatorMachine
