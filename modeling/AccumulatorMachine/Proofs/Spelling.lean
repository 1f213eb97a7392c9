import AccumulatorMachine.Proofs.LongestWord
import AccumulatorMachine.Proofs.Numeral

/-!
The grammar of the stripped source. A spelling is a syntax tree with all the choices a writer has;
it has one text and stands for one block. No text has two spellings.
-/
namespace AccumulatorMachine

/-- A tag name as it can stand between colons. -/
@[ext]
structure TagName where
  chars : List Char
  no_colon : ':' ∉ chars

def TagName.text (n : TagName) : List Char :=
  ':' :: (n.chars ++ [':'])

def TagName.name (n : TagName) : String :=
  String.ofList n.chars

/-- The ways to write an argument. The character that closes a quote can be any. -/
inductive ArgumentSpelling where
  | number (n : Decimal.Numeral)
  | quoted (c closing : Char)
  | tag (n : TagName)
  | register (r : Register)

namespace ArgumentSpelling

def text : ArgumentSpelling → List Char
  | .number n => n.text
  | .quoted c closing => ['\'', c, closing]
  | .tag n => n.text
  | .register r => [r.symbol]

def argument : ArgumentSpelling → Argument
  | .number n => .literal n.word
  | .quoted c _ => .literal (Int64.ofNat c.toNat)
  | .tag n => .tag n.name
  | .register r => .register r

end ArgumentSpelling

/-- A character that can be left out. -/
def optionalChar (present : Bool) (c : Char) : List Char :=
  if present then [c] else []

/-- The ways to write a block: a tag name between colons, or a mnemonic with an argument if its
opcode takes one, then `*` for a breakpoint, then `;` as the writer likes. -/
inductive BlockSpelling where
  | tag (n : TagName)
  | action (word : String) (opcode : Opcode) (known : (word, opcode) ∈ Opcode.mnemonics.entries)
      (argument : Option ArgumentSpelling) (arity : argument.isSome = opcode.takesOperand)
      (breakpoint separator : Bool)

namespace BlockSpelling

/-- What follows the mnemonic of an action. -/
def tailText (argument : Option ArgumentSpelling) (breakpoint separator : Bool) : List Char :=
  argument.elim [] ArgumentSpelling.text ++
    (optionalChar breakpoint '*' ++ optionalChar separator ';')

def text : BlockSpelling → List Char
  | .tag n => n.text
  | .action word _ _ argument _ breakpoint separator =>
    word.toList ++ tailText argument breakpoint separator

def block (position : Nat) : BlockSpelling → Block
  | .tag n => .tag n.name position
  | .action _ opcode _ argument _ breakpoint _ =>
    .action opcode (argument.map ArgumentSpelling.argument) breakpoint position

end BlockSpelling

/-- A whole source: one spelling after the other. -/
abbrev Spelling := List BlockSpelling

namespace Spelling

def text (spelling : Spelling) : List Char :=
  spelling.flatMap BlockSpelling.text

/-- The blocks that are spelled, the first of them at `position` and each of the others behind the
texts before it. -/
def blocks (position : Nat) : Spelling → List Block
  | [] => []
  | b :: rest => b.block position :: blocks (position + b.text.length) rest

theorem text_cons (b : BlockSpelling) (rest : Spelling) :
    text (b :: rest) = b.text ++ text rest :=
  List.flatMap_cons

end Spelling

/-- A text that adds nothing to a block before it. -/
def Quiet (rest : List Char) : Prop :=
  ∀ c ∈ rest.head?, c.isDigit = false ∧ c ≠ '*' ∧ c ≠ ';'

theorem Quiet.no_digit {rest : List Char} (h : Quiet rest) :
    ∀ c ∈ rest.head?, c.isDigit = false :=
  fun c hc => (h c hc).1

theorem quiet_nil : Quiet [] := by
  intro c hc
  cases hc

theorem mnemonic_start : ∀ entry ∈ Opcode.mnemonics.entries, ∃ c ∈ entry.1.toList.head?,
    c ≠ ':' ∧ c.isDigit = false ∧ c ≠ '*' ∧ c ≠ ';' := by
  have hany : ∀ entry ∈ Opcode.mnemonics.entries, (entry.1.toList.head?.any fun c =>
      decide (c ≠ ':' ∧ c.isDigit = false ∧ c ≠ '*' ∧ c ≠ ';')) = true := by decide
  intro entry hentry
  obtain ⟨c, hc, hstart⟩ := (Option.any_eq_true _ _).mp (hany entry hentry)
  exact ⟨c, hc, of_decide_eq_true hstart⟩

theorem mnemonic_ne_nil {word : String} {opcode : Opcode}
    (known : (word, opcode) ∈ Opcode.mnemonics.entries) : word.toList ≠ [] := by
  obtain ⟨c, hc, -⟩ := mnemonic_start _ known
  intro hnil
  rw [hnil] at hc
  cases hc

namespace BlockSpelling

theorem text_ne_nil (b : BlockSpelling) : b.text ≠ [] := by
  cases b with
  | tag n => exact List.cons_ne_nil _ _
  | action word opcode known argument arity breakpoint separator =>
    exact List.append_ne_nil_of_left_ne_nil (mnemonic_ne_nil known) _

theorem position_block (b : BlockSpelling) (position : Nat) :
    (b.block position).position = position := by
  cases b with
  | tag n => rfl
  | action word opcode known argument arity breakpoint separator => rfl

/-- A block starts with a colon or a letter. -/
theorem quiet_text_append (b : BlockSpelling) (rest : List Char) : Quiet (b.text ++ rest) := by
  intro c hc
  rw [List.head?_append_of_ne_nil _ b.text_ne_nil] at hc
  cases b with
  | tag n =>
    obtain rfl : ':' = c := Option.some.inj hc
    decide
  | action word opcode known argument arity breakpoint separator =>
    obtain ⟨d, hd, -, hquiet⟩ := mnemonic_start _ known
    rw [text, List.head?_append_of_ne_nil _ (mnemonic_ne_nil known)] at hc
    obtain rfl : d = c := Option.some.inj (hd.symm.trans hc)
    exact hquiet

end BlockSpelling

theorem Spelling.quiet_text (spelling : Spelling) : Quiet (Spelling.text spelling) := by
  cases spelling with
  | nil => exact quiet_nil
  | cons b rest =>
    rw [Spelling.text_cons]
    exact b.quiet_text_append _

theorem no_digit_marks_append (breakpoint separator : Bool) {rest : List Char} (h : Quiet rest) :
    ∀ c ∈ (optionalChar breakpoint '*' ++ optionalChar separator ';' ++ rest).head?,
      c.isDigit = false := by
  intro c hc
  cases breakpoint with
  | true =>
    obtain rfl : '*' = c := Option.some.inj hc
    rfl
  | false =>
    cases separator with
    | true =>
      obtain rfl : ';' = c := Option.some.inj hc
      rfl
    | false => exact h.no_digit c hc

theorem TagName.text_append (n : TagName) (rest : List Char) :
    n.text ++ rest = ':' :: (n.chars ++ ':' :: rest) := by
  simp [TagName.text]

theorem TagName.length_text (n : TagName) : n.text.length = 1 + (n.chars.length + 1) := by
  simp only [TagName.text, List.length_cons, List.length_append, List.length_nil]
  omega

theorem TagName.takeWhile_chars (n : TagName) (rest : List Char) :
    (n.chars ++ ':' :: rest).takeWhile (· != ':') = n.chars := by
  apply takeWhile_append_exact
  · intro c hc
    have hne : c ≠ ':' := fun hcolon => n.no_colon (hcolon ▸ hc)
    simpa using hne
  · intro c hc
    obtain rfl : ':' = c := Option.some.inj hc
    rfl

theorem TagName.text_append_injective {n m : TagName} {rest rest' : List Char}
    (h : n.text ++ rest = m.text ++ rest') : n = m ∧ rest = rest' := by
  have htail : n.chars ++ ':' :: rest = m.chars ++ ':' :: rest' := by
    rw [TagName.text_append, TagName.text_append] at h
    exact (List.cons.inj h).2
  have hchars : n.chars = m.chars := by
    rw [← n.takeWhile_chars rest, htail, m.takeWhile_chars]
  refine ⟨TagName.ext hchars, ?_⟩
  rw [hchars, List.append_cancel_left_eq] at htail
  exact (List.cons.inj htail).2

theorem Register.symbol_of_ofSymbol? {c : Char} {r : Register} (h : Register.ofSymbol? c = some r) :
    r.symbol = c := by
  unfold Register.ofSymbol? at h
  split at h <;> cases h <;> rfl

theorem Register.symbol_injective {r r' : Register} (h : r.symbol = r'.symbol) : r = r' := by
  have hsome := Register.ofSymbol?_symbol r
  rw [h, Register.ofSymbol?_symbol] at hsome
  exact (Option.some.inj hsome).symm

/-- What the first character of an argument tells about it. -/
inductive ArgumentKind where
  | number
  | quoted
  | tag
  | register
deriving DecidableEq

def ArgumentSpelling.kind : ArgumentSpelling → ArgumentKind
  | .number _ => .number
  | .quoted _ _ => .quoted
  | .tag _ => .tag
  | .register _ => .register

def ArgumentKind.ofChar (c : Char) : ArgumentKind :=
  if c.isDigit || c == '-' then .number
  else if c = '\'' then .quoted
  else if c = ':' then .tag
  else .register

theorem ArgumentKind.ofChar_cases (c : Char) :
    (c.isDigit || c == '-') = true ∧ ofChar c = .number ∨ c = '\'' ∧ ofChar c = .quoted ∨
      c = ':' ∧ ofChar c = .tag ∨
      ((c.isDigit || c == '-') = false ∧ c ≠ '\'' ∧ c ≠ ':') ∧ ofChar c = .register := by
  unfold ofChar
  by_cases hnumber : (c.isDigit || c == '-') = true
  · exact Or.inl ⟨hnumber, if_pos hnumber⟩
  rw [if_neg hnumber]
  by_cases hquote : c = '\''
  · exact Or.inr (Or.inl ⟨hquote, if_pos hquote⟩)
  rw [if_neg hquote]
  by_cases hcolon : c = ':'
  · exact Or.inr (Or.inr (Or.inl ⟨hcolon, if_pos hcolon⟩))
  · exact Or.inr (Or.inr (Or.inr
      ⟨⟨Bool.eq_false_iff.mpr hnumber, hquote, hcolon⟩, if_neg hcolon⟩))

theorem ArgumentSpelling.head?_text (a : ArgumentSpelling) :
    ∃ c ∈ a.text.head?, ArgumentKind.ofChar c = a.kind := by
  cases a with
  | number n =>
    obtain ⟨negative, digits, hne, hd, hmin, hmax⟩ := n
    cases negative with
    | true => exact ⟨'-', rfl, rfl⟩
    | false =>
      obtain ⟨c, rest, rfl⟩ := List.exists_cons_of_ne_nil hne
      refine ⟨c, rfl, ?_⟩
      have hc : c.isDigit = true := hd c List.mem_cons_self
      simp [ArgumentKind.ofChar, kind, hc]
  | quoted c closing => exact ⟨'\'', rfl, rfl⟩
  | tag n => exact ⟨':', rfl, rfl⟩
  | register r =>
    refine ⟨r.symbol, rfl, ?_⟩
    cases r <;> rfl

theorem ArgumentSpelling.text_ne_nil (a : ArgumentSpelling) : a.text ≠ [] := by
  obtain ⟨c, hc, -⟩ := a.head?_text
  intro hnil
  rw [hnil] at hc
  cases hc

theorem ArgumentSpelling.kind_eq_of_text_append {a b : ArgumentSpelling} {rest rest' : List Char}
    (h : a.text ++ rest = b.text ++ rest') : a.kind = b.kind := by
  obtain ⟨c, hc, hkind⟩ := a.head?_text
  obtain ⟨d, hd, hkind'⟩ := b.head?_text
  have hhead := congrArg List.head? h
  rw [List.head?_append_of_ne_nil _ a.text_ne_nil, List.head?_append_of_ne_nil _ b.text_ne_nil,
    hc, hd] at hhead
  rw [← hkind, ← hkind', Option.some.inj hhead]

theorem ArgumentSpelling.text_append_injective {a b : ArgumentSpelling} {rest rest' : List Char}
    (hrest : ∀ c ∈ rest.head?, c.isDigit = false) (hrest' : ∀ c ∈ rest'.head?, c.isDigit = false)
    (h : a.text ++ rest = b.text ++ rest') : a = b ∧ rest = rest' := by
  have hkind := kind_eq_of_text_append h
  cases a with
  | number n =>
    cases b with
    | number m =>
      obtain ⟨rfl, hr⟩ := Decimal.text_append_injective hrest hrest' h
      exact ⟨rfl, hr⟩
    | quoted _ _ | tag _ | register _ => cases hkind
  | quoted c closing =>
    cases b with
    | quoted d closing' =>
      simp only [text, List.cons_append, List.nil_append, List.cons.injEq, true_and] at h
      obtain ⟨rfl, rfl, hr⟩ := h
      exact ⟨rfl, hr⟩
    | number _ | tag _ | register _ => cases hkind
  | tag n =>
    cases b with
    | tag m =>
      obtain ⟨rfl, hr⟩ := TagName.text_append_injective h
      exact ⟨rfl, hr⟩
    | number _ | quoted _ _ | register _ => cases hkind
  | register r =>
    cases b with
    | register r' =>
      obtain ⟨hsymbol, hr⟩ := List.cons.inj h
      rw [Register.symbol_injective hsymbol]
      exact ⟨rfl, hr⟩
    | number _ | quoted _ _ | tag _ => cases hkind

theorem optionalChar_append_injective {c : Char} {b b' : Bool} {rest rest' : List Char}
    (hrest : rest.head? ≠ some c) (hrest' : rest'.head? ≠ some c)
    (h : optionalChar b c ++ rest = optionalChar b' c ++ rest') : b = b' ∧ rest = rest' := by
  cases b with
  | true =>
    cases b' with
    | true => exact ⟨rfl, (List.cons.inj h).2⟩
    | false => exact absurd (congrArg List.head? h).symm hrest'
  | false =>
    cases b' with
    | true => exact absurd (congrArg List.head? h) hrest
    | false => exact ⟨rfl, h⟩

theorem Quiet.head?_ne_star {rest : List Char} (h : Quiet rest) (separator : Bool) :
    (optionalChar separator ';' ++ rest).head? ≠ some '*' := by
  cases separator with
  | true => exact fun hstar => absurd (Option.some.inj hstar) (by decide)
  | false => exact fun hstar => (h '*' hstar).2.1 rfl

theorem Quiet.head?_ne_semicolon {rest : List Char} (h : Quiet rest) : rest.head? ≠ some ';' :=
  fun hsemicolon => (h ';' hsemicolon).2.2 rfl

theorem marks_append_injective {b b' s s' : Bool} {rest rest' : List Char} (hrest : Quiet rest)
    (hrest' : Quiet rest')
    (h : optionalChar b '*' ++ optionalChar s ';' ++ rest =
      optionalChar b' '*' ++ optionalChar s' ';' ++ rest') :
    b = b' ∧ s = s' ∧ rest = rest' := by
  rw [List.append_assoc, List.append_assoc] at h
  obtain ⟨hb, htail⟩ :=
    optionalChar_append_injective (hrest.head?_ne_star s) (hrest'.head?_ne_star s') h
  obtain ⟨hs, hr⟩ :=
    optionalChar_append_injective hrest.head?_ne_semicolon hrest'.head?_ne_semicolon htail
  exact ⟨hb, hs, hr⟩

/-- No mnemonic starts another one. -/
theorem mnemonics_prefix_free : ∀ entry ∈ Opcode.mnemonics.entries,
    ∀ other ∈ Opcode.mnemonics.entries, entry.1.toList <+: other.1.toList → entry = other := by
  decide

theorem mnemonic_eq_of_prefix {entry other : String × Opcode} {text : List Char}
    (he : entry ∈ Opcode.mnemonics.entries) (ho : other ∈ Opcode.mnemonics.entries)
    (hep : entry.1.toList <+: text) (hop : other.1.toList <+: text) : entry = other := by
  rcases List.prefix_or_prefix_of_prefix hep hop with h | h
  · exact mnemonics_prefix_free entry he other ho h
  · exact (mnemonics_prefix_free other ho entry he h).symm

theorem BlockSpelling.tailText_append (a : Option ArgumentSpelling) (b s : Bool)
    (rest : List Char) : tailText a b s ++ rest =
      a.elim [] ArgumentSpelling.text ++ (optionalChar b '*' ++ optionalChar s ';' ++ rest) :=
  List.append_assoc ..

theorem BlockSpelling.tailText_append_injective {a a' : Option ArgumentSpelling} {b b' s s' : Bool}
    {rest rest' : List Char} (harity : a.isSome = a'.isSome) (hrest : Quiet rest)
    (hrest' : Quiet rest') (h : tailText a b s ++ rest = tailText a' b' s' ++ rest') :
    a = a' ∧ b = b' ∧ s = s' ∧ rest = rest' := by
  rw [tailText_append, tailText_append] at h
  cases a with
  | none =>
    obtain rfl : a' = none := by simpa using harity.symm
    exact ⟨rfl, marks_append_injective hrest hrest' h⟩
  | some spelled =>
    obtain ⟨spelled', rfl⟩ := Option.isSome_iff_exists.mp harity.symm
    obtain ⟨rfl, hmarks⟩ := ArgumentSpelling.text_append_injective
      (no_digit_marks_append b s hrest) (no_digit_marks_append b' s' hrest') h
    exact ⟨rfl, marks_append_injective hrest hrest' hmarks⟩

theorem TagName.text_append_ne_mnemonic {n : TagName} {word : String} {opcode : Opcode}
    {rest rest' : List Char} (known : (word, opcode) ∈ Opcode.mnemonics.entries) :
    n.text ++ rest ≠ word.toList ++ rest' := by
  intro h
  obtain ⟨c, hc, hcolon, -⟩ := mnemonic_start _ known
  have hhead := congrArg List.head? h
  rw [List.head?_append_of_ne_nil _ (mnemonic_ne_nil known), hc] at hhead
  exact hcolon (Option.some.inj hhead).symm

/-- The block at the start of a text is spelled in one way, if the texts behind it are quiet. -/
theorem BlockSpelling.text_append_injective {b b' : BlockSpelling} {rest rest' : List Char}
    (hrest : Quiet rest) (hrest' : Quiet rest') (h : b.text ++ rest = b'.text ++ rest') :
    b = b' ∧ rest = rest' := by
  cases b with
  | tag n =>
    cases b' with
    | tag m =>
      obtain ⟨rfl, hr⟩ := TagName.text_append_injective h
      exact ⟨rfl, hr⟩
    | action word opcode known argument arity breakpoint separator =>
      rw [text, text, List.append_assoc] at h
      exact absurd h (TagName.text_append_ne_mnemonic known)
  | action word opcode known argument arity breakpoint separator =>
    cases b' with
    | tag m =>
      rw [text, text, List.append_assoc] at h
      exact absurd h.symm (TagName.text_append_ne_mnemonic known)
    | action word' opcode' known' argument' arity' breakpoint' separator' =>
      rw [text, text, List.append_assoc, List.append_assoc] at h
      have hentry : (word, opcode) = (word', opcode') :=
        mnemonic_eq_of_prefix known known' ⟨_, h⟩ ⟨_, rfl⟩
      obtain ⟨rfl, rfl⟩ := Prod.mk.inj hentry
      rw [List.append_cancel_left_eq] at h
      obtain ⟨rfl, rfl, rfl, hr⟩ :=
        tailText_append_injective (arity.trans arity'.symm) hrest hrest' h
      exact ⟨rfl, hr⟩

/-- No text has two spellings. -/
theorem Spelling.text_inj {a b : Spelling} (h : Spelling.text a = Spelling.text b) : a = b := by
  induction a generalizing b with
  | nil =>
    cases b with
    | nil => rfl
    | cons d later =>
      rw [Spelling.text_cons] at h
      exact absurd (List.append_eq_nil_iff.mp h.symm).1 d.text_ne_nil
  | cons c rest ih =>
    cases b with
    | nil =>
      rw [Spelling.text_cons] at h
      exact absurd (List.append_eq_nil_iff.mp h).1 c.text_ne_nil
    | cons d later =>
      rw [Spelling.text_cons, Spelling.text_cons] at h
      obtain ⟨rfl, htail⟩ := BlockSpelling.text_append_injective (Spelling.quiet_text rest)
        (Spelling.quiet_text later) h
      rw [ih htail]

end AccumulatorMachine
