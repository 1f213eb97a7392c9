import AccumulatorMachine.Json.Reader
import AccumulatorMachine.Proofs.Numeral

/-!
Reading the indented text of a JSON value gives the value back. The way goes over tokens: the text of
a value has the tokens of the value, whatever its indentation, and the tokens of a value are read as
that value with the fuel that their number gives.
-/
namespace AccumulatorMachine.Json

theorem stringUnits?_letter {letter c : Char} (h : unescape? letter = some c) (hu : letter ≠ 'u')
    (rest : List Char) : stringUnits? ('\\' :: letter :: rest) =
      (stringUnits? rest).map fun read => (.char c :: read.1, read.2) := by
  rw [stringUnits?, h]
  · cases stringUnits? rest with
    | none => rfl
    | some read => rfl
  · simp [hu]

theorem stringUnits?_code {a b c d : Char} {code : Nat} (h : hexCode? a b c d = some code)
    (rest : List Char) : stringUnits? ('\\' :: 'u' :: a :: b :: c :: d :: rest) =
      (stringUnits? rest).map fun read => (.ofCode code :: read.1, read.2) := by
  rw [stringUnits?, h]
  cases stringUnits? rest with
  | none => rfl
  | some read => rfl

theorem stringUnits?_plain {c : Char} (hcontrol : ¬c.toNat < 0x20) (hquote : c ≠ '"')
    (hslash : c ≠ '\\') (rest : List Char) : stringUnits? (c :: rest) =
      (stringUnits? rest).map fun read => (.char c :: read.1, read.2) := by
  have hallowed : ¬(c.toNat < 0x20 ∨ c = '\\') := not_or.mpr ⟨hcontrol, hslash⟩
  rw [stringUnits?, if_neg hallowed]
  · simpa using hquote
  · simp [hslash]
  · simp [hslash]

theorem hexValue?_hexDigit : ∀ n < 16, hexValue? (hexDigit n) = some n := by
  decide

/-- The code of a control character is written with four digits, the first two of them zeros. -/
theorem hexCode?_control {n : Nat} (h : n < 0x20) :
    hexCode? '0' '0' (hexDigit (n / 16)) (hexDigit (n % 16)) = some n := by
  have hzero : hexValue? '0' = some 0 := by decide
  have hhigh := hexValue?_hexDigit (n / 16) (by omega)
  have hlow := hexValue?_hexDigit (n % 16) (by omega)
  unfold hexCode?
  rw [hzero, hhigh, hlow]
  exact congrArg some (by omega)

theorem ofCode_control {c : Char} (h : c.toNat < 0x20) : Unit16.ofCode c.toNat = .char c := by
  unfold Unit16.ofCode
  rw [if_neg (by omega), Char.ofNat_toNat]

/-- A character is read back from the way in which it stands in a literal. -/
theorem stringUnits?_escape (c : Char) (rest : List Char) :
    stringUnits? (escape c ++ rest) =
      (stringUnits? rest).map fun read => (.char c :: read.1, read.2) := by
  unfold escape
  split
  iterate 7 exact stringUnits?_letter rfl (by decide) rest
  · rename_i hquote hslash _ _ _ _ _
    split
    · rename_i hcontrol
      have hread := stringUnits?_code (hexCode?_control hcontrol) rest
      rwa [ofCode_control hcontrol] at hread
    · rename_i hcontrol
      exact stringUnits?_plain hcontrol hquote hslash rest

theorem stringUnits?_flatMap_escape (text rest : List Char) :
    stringUnits? (text.flatMap escape ++ '"' :: rest) = some (text.map .char, rest) := by
  induction text with
  | nil => rfl
  | cons c more ih =>
    rw [List.flatMap_cons, List.append_assoc, stringUnits?_escape, ih]
    rfl

theorem joinPairs_chars (text : List Char) : joinPairs (text.map .char) = some text := by
  induction text with
  | nil => rfl
  | cons c more ih =>
    rw [List.map_cons, joinPairs, ih]
    rfl

/-- A text that does not go on with a number. -/
def Apart (rest : List Char) : Prop :=
  ∀ c ∈ rest.head?, c.isDigit = false ∧ c ≠ '.' ∧ c ≠ 'e' ∧ c ≠ 'E'

theorem apart_cons {c : Char} (rest : List Char)
    (h : c.isDigit = false ∧ c ≠ '.' ∧ c ≠ 'e' ∧ c ≠ 'E') : Apart (c :: rest) := by
  intro d hd
  obtain rfl := Option.some.inj hd
  exact h

theorem apart_nil : Apart [] := by
  intro c hc
  cases hc

theorem head?_digits_ne_zero {n : Nat} (h : 0 < n) : (Decimal.digits n).head? ≠ some '0' := by
  have hsmall : ∀ k < 10, 0 < k → [k.digitChar].head? ≠ some '0' := by decide
  unfold Decimal.digits
  induction n using Nat.strongRecOn with
  | ind n ih =>
    rcases Nat.lt_or_ge n 10 with hlt | hge
    · rw [Nat.toDigits_of_lt_base hlt]
      exact hsmall n hlt h
    · rw [Nat.toDigits_of_base_le (by decide) hge,
        List.head?_append_of_ne_nil _ Nat.toDigits_ne_nil]
      exact ih (n / 10) (by omega) (by omega)

theorem digits?_digits_append (n : Nat) {rest : List Char} (h : Apart rest) :
    digits? (Decimal.digits n ++ rest) = some (Decimal.digits n) := by
  have hrun : (Decimal.digits n ++ rest).takeWhile Char.isDigit = Decimal.digits n :=
    takeWhile_append_exact (fun _ hc => Decimal.isDigit_of_mem_digits hc) fun c hc => (h c hc).1
  unfold digits?
  dsimp only
  rw [hrun, if_neg (by simp [Decimal.digits_ne_nil])]

theorem wholePart?_digits_append (n : Nat) {rest : List Char} (h : Apart rest) :
    wholePart? (Decimal.digits n ++ rest) = some (Decimal.digits n) := by
  rcases Nat.eq_zero_or_pos n with rfl | hpos
  · rfl
  · have hhead : (Decimal.digits n ++ rest).head? ≠ some '0' := by
      rw [List.head?_append_of_ne_nil _ (Decimal.digits_ne_nil n)]
      exact head?_digits_ne_zero hpos
    unfold wholePart?
    split
    · rename_i heq
      exact absurd (congrArg List.head? heq) hhead
    · exact digits?_digits_append n h

theorem fractionPart?_of_apart {rest : List Char} (h : Apart rest) :
    fractionPart? rest = some [] := by
  unfold fractionPart?
  split
  · exact absurd rfl (h '.' rfl).2.1
  · rfl

theorem exponentPart?_of_apart {rest : List Char} (h : Apart rest) :
    exponentPart? rest = some [] := by
  unfold exponentPart?
  split
  · rename_i mark more
    have hmark := (h mark rfl).2.2
    rw [if_neg (not_or.mpr hmark)]
  · rfl

theorem number?_digits_append (n : Nat) {rest : List Char} (h : Apart rest) :
    number? (Decimal.digits n ++ rest) = some (Decimal.digits n) := by
  have hmagnitude : magnitude? (Decimal.digits n ++ rest) = some (Decimal.digits n) := by
    unfold magnitude?
    rw [wholePart?_digits_append n h]
    dsimp only
    rw [List.drop_left, fractionPart?_of_apart h]
    dsimp only
    rw [List.length_nil, Nat.add_zero, List.drop_left, exponentPart?_of_apart h]
    simp
  unfold number?
  split
  · rename_i heq
    have hhead := congrArg List.head? heq
    rw [List.head?_append_of_ne_nil _ (Decimal.digits_ne_nil n)] at hhead
    exact absurd hhead (Decimal.head?_digits_ne fun _ hc => Decimal.isDigit_of_mem_digits hc)
  · exact hmagnitude

theorem tokens?_nil : tokens? [] = some [] := by
  rw [tokens?]

theorem tokens?_space {c : Char} (h : isSpace c = true) (rest : List Char) :
    tokens? (c :: rest) = tokens? rest := by
  rw [tokens?, if_pos h]

theorem tokens?_newLine (depth : Nat) (rest : List Char) :
    tokens? (newLine depth ++ rest) = tokens? rest := by
  have hblanks (count : Nat) : tokens? (List.replicate count ' ' ++ rest) = tokens? rest := by
    induction count with
    | zero => rfl
    | succ count ih =>
      rw [List.replicate_succ, List.cons_append, tokens?_space rfl]
      exact ih
  unfold newLine
  rw [List.cons_append, tokens?_space rfl]
  exact hblanks (2 * depth)

theorem tokens?_of_token? {c : Char} {rest left : List Char} {token : Token}
    (hspace : isSpace c = false) (h : token? (c :: rest) = some (token, left)) :
    tokens? (c :: rest) = (tokens? left).map (token :: ·) := by
  rw [tokens?, hspace, if_neg Bool.false_ne_true]
  split
  · rename_i hnone
    rw [hnone] at h
    cases h
  · rename_i token' left' hsome
    rw [hsome] at h
    obtain ⟨rfl, rfl⟩ := Prod.mk.inj (Option.some.inj h)
    rfl

theorem tokens?_mark {c : Char} {token : Token} (h : mark? c = some token) (rest : List Char) :
    tokens? (c :: rest) = (tokens? rest).map (token :: ·) := by
  have hfacts : isSpace c = false ∧ c ≠ '"' := by
    unfold mark? at h
    split at h
    iterate 6 decide
    cases h
  apply tokens?_of_token? hfacts.1
  unfold token?
  dsimp only
  rw [if_neg hfacts.2, h]

theorem tokens?_quote (value : Option String) (rest : List Char) :
    tokens? (quote value ++ rest) = (tokens? rest).map (.string value :: ·) := by
  cases value with
  | none => exact tokens?_of_token? rfl rfl
  | some text =>
    have htoken : token? ('"' :: (text.toList.flatMap escape ++ '"' :: rest)) =
        some (.string (some text), rest) := by
      unfold token?
      dsimp only
      rw [if_pos rfl, stringUnits?_flatMap_escape, Option.map_some, joinPairs_chars,
        Option.map_some, String.ofList_toList]
    have hquote : quote (some text) ++ rest =
        '"' :: (text.toList.flatMap escape ++ '"' :: rest) := by simp [quote]
    rw [hquote]
    exact tokens?_of_token? rfl htoken

theorem tokens?_keyword {word : List Char} {token : Token} (h : (word, token) ∈ keywords)
    (rest : List Char) : tokens? (word ++ rest) = (tokens? rest).map (token :: ·) := by
  simp only [keywords, List.mem_cons, Prod.mk.injEq, List.not_mem_nil, or_false] at h
  rcases h with ⟨rfl, rfl⟩ | ⟨rfl, rfl⟩ | ⟨rfl, rfl⟩
  iterate 3 exact tokens?_of_token? rfl rfl

/-- No digit is a space, a quote, a mark or the start of a keyword. -/
theorem digit_facts {c : Char} (h : c.isDigit = true) (rest : List Char) :
    isSpace c = false ∧ c ≠ '"' ∧ mark? c = none ∧
      (keywords.find? fun entry => entry.1.isPrefixOf (c :: rest)) = none := by
  have hne {d : Char} (hd : d.isDigit = false) : c ≠ d := by
    rintro rfl
    rw [h] at hd
    cases hd
  refine ⟨?_, hne (by decide), ?_, ?_⟩
  · simp [isSpace, hne (d := ' ') (by decide), hne (d := '\n') (by decide),
      hne (d := '\t') (by decide), hne (d := '\r') (by decide)]
  · unfold mark?
    split
    iterate 6 exact absurd h (by decide)
    rfl
  · simp [keywords, List.isPrefixOf, Ne.symm (hne (d := 'n') (by decide)),
      Ne.symm (hne (d := 't') (by decide)), Ne.symm (hne (d := 'f') (by decide))]

theorem tokens?_digits (n : Nat) {rest : List Char} (h : Apart rest) :
    tokens? (Decimal.digits n ++ rest) =
      (tokens? rest).map (.number (Decimal.digits n) :: ·) := by
  have hnumber := number?_digits_append n h
  have hleft : (Decimal.digits n ++ rest).drop (Decimal.digits n).length = rest := List.drop_left
  obtain ⟨c, more, hdigits⟩ := List.exists_cons_of_ne_nil (Decimal.digits_ne_nil n)
  have htext : Decimal.digits n ++ rest = c :: (more ++ rest) := by
    rw [hdigits]
    rfl
  have hc : c.isDigit = true := by
    apply Decimal.isDigit_of_mem_digits (n := n)
    rw [hdigits]
    exact List.mem_cons_self
  obtain ⟨hspace, hquote, hmark, hkeyword⟩ := digit_facts hc (more ++ rest)
  rw [htext] at hnumber hleft ⊢
  apply tokens?_of_token? hspace
  unfold token?
  dsimp only
  rw [if_neg hquote, hmark]
  dsimp only
  rw [hkeyword]
  dsimp only
  rw [hnumber, Option.map_some, hleft]

mutual

def tokens : Json → List Token
  | .null => [.null]
  | .bool value => [.bool value]
  | .number literal => [.number literal]
  | .string value => [.string value]
  | .array [] => [.beginArray, .endArray]
  | .array (item :: rest) => .beginArray :: (tokens item ++ (itemTokens rest ++ [.endArray]))
  | .object [] => [.beginObject, .endObject]
  | .object ((key, value) :: rest) =>
    .beginObject :: .string key :: .colon :: (tokens value ++ (fieldTokens rest ++ [.endObject]))

/-- The tokens of the items that follow another. -/
def itemTokens : List Json → List Token
  | [] => []
  | item :: rest => .comma :: (tokens item ++ itemTokens rest)

/-- The tokens of the fields that follow another. -/
def fieldTokens : List (Option String × Json) → List Token
  | [] => []
  | (key, value) :: rest => .comma :: .string key :: .colon :: (tokens value ++ fieldTokens rest)

end

/-- A value all of whose numbers are written as natural numbers are. -/
inductive Natural : Json → Prop
  | null : Natural .null
  | bool (value : Bool) : Natural (.bool value)
  | number (n : Nat) : Natural (.number (Decimal.digits n))
  | string (value : Option String) : Natural (.string value)
  | array {items : List Json} (h : ∀ item ∈ items, Natural item) : Natural (.array items)
  | object {fields : List (Option String × Json)} (h : ∀ field ∈ fields, Natural field.2) :
    Natural (.object fields)

/-- The text of a value gives the tokens of the value, and then those of what follows. -/
def Tokenizes (v : Json) : Prop :=
  ∀ (depth : Nat) (rest : List Char), Apart rest →
    tokens? (pretty depth v ++ rest) = (tokens? rest).map (v.tokens ++ ·)

theorem apart_newLine (depth : Nat) (rest : List Char) : Apart (newLine depth ++ rest) :=
  apart_cons _ (by decide)

theorem apart_prettyItems (depth outer : Nat) (items : List Json) (rest : List Char) :
    Apart (prettyItems depth items ++ (newLine outer ++ rest)) := by
  cases items with
  | nil => exact apart_newLine outer rest
  | cons item more =>
    rw [prettyItems]
    exact apart_cons _ (by decide)

theorem apart_prettyFields (depth outer : Nat) (fields : List (Option String × Json))
    (rest : List Char) : Apart (prettyFields depth fields ++ (newLine outer ++ rest)) := by
  cases fields with
  | nil => exact apart_newLine outer rest
  | cons field more =>
    rw [prettyFields]
    exact apart_cons _ (by decide)

theorem tokens?_prettyItems {items : List Json} (h : ∀ item ∈ items, item.Tokenizes)
    (depth outer : Nat) (rest : List Char) :
    tokens? (prettyItems depth items ++ (newLine outer ++ rest)) =
      (tokens? rest).map (itemTokens items ++ ·) := by
  induction items with
  | nil =>
    rw [prettyItems, itemTokens, List.nil_append, tokens?_newLine]
    simp
  | cons item more ih =>
    have hitem := h item List.mem_cons_self depth _ (apart_prettyItems depth outer more rest)
    have hmore := ih fun other hother => h other (List.mem_cons_of_mem _ hother)
    rw [prettyItems, itemTokens]
    simp only [List.cons_append, List.append_assoc]
    rw [tokens?_mark rfl, tokens?_newLine, hitem, hmore]
    simp [Option.map_map, Function.comp_def]

theorem tokens?_prettyFields {fields : List (Option String × Json)}
    (h : ∀ field ∈ fields, field.2.Tokenizes) (depth outer : Nat) (rest : List Char) :
    tokens? (prettyFields depth fields ++ (newLine outer ++ rest)) =
      (tokens? rest).map (fieldTokens fields ++ ·) := by
  induction fields with
  | nil =>
    rw [prettyFields, fieldTokens, List.nil_append, tokens?_newLine]
    simp
  | cons field more ih =>
    obtain ⟨key, value⟩ := field
    have hvalue := h (key, value) List.mem_cons_self depth _
      (apart_prettyFields depth outer more rest)
    have hmore := ih fun other hother => h other (List.mem_cons_of_mem _ hother)
    rw [prettyFields, fieldTokens]
    simp only [List.cons_append, List.append_assoc, List.nil_append]
    rw [tokens?_mark rfl, tokens?_newLine, tokens?_quote, tokens?_mark rfl, tokens?_space rfl,
      hvalue, hmore]
    simp [Option.map_map, Function.comp_def]

theorem tokenizes_array {items : List Json} (h : ∀ item ∈ items, item.Tokenizes) :
    (Json.array items).Tokenizes := by
  intro depth rest _
  cases items with
  | nil =>
    show tokens? ('[' :: ']' :: rest) = _
    rw [tokens?_mark rfl, tokens?_mark rfl, Option.map_map]
    rfl
  | cons item more =>
    have hitem := h item List.mem_cons_self (depth + 1) _
      (apart_prettyItems (depth + 1) depth more (']' :: rest))
    have hmore := tokens?_prettyItems (fun other hother => h other (List.mem_cons_of_mem _ hother))
      (depth + 1) depth (']' :: rest)
    rw [pretty, tokens]
    simp only [List.cons_append, List.append_assoc, List.nil_append]
    rw [tokens?_mark rfl, tokens?_newLine, hitem, hmore, tokens?_mark rfl]
    simp [Option.map_map, Function.comp_def]

theorem tokenizes_object {fields : List (Option String × Json)}
    (h : ∀ field ∈ fields, field.2.Tokenizes) : (Json.object fields).Tokenizes := by
  intro depth rest _
  cases fields with
  | nil =>
    show tokens? ('\x7b' :: '\x7d' :: rest) = _
    rw [tokens?_mark rfl, tokens?_mark rfl, Option.map_map]
    rfl
  | cons field more =>
    obtain ⟨key, value⟩ := field
    have hvalue := h (key, value) List.mem_cons_self (depth + 1) _
      (apart_prettyFields (depth + 1) depth more ('\x7d' :: rest))
    have hmore := tokens?_prettyFields
      (fun other hother => h other (List.mem_cons_of_mem _ hother)) (depth + 1) depth
      ('\x7d' :: rest)
    rw [pretty, tokens]
    simp only [List.cons_append, List.append_assoc, List.nil_append]
    rw [tokens?_mark rfl, tokens?_newLine, tokens?_quote, tokens?_mark rfl, tokens?_space rfl,
      hvalue, hmore, tokens?_mark rfl]
    simp [Option.map_map, Function.comp_def]

theorem Natural.tokenizes {v : Json} (h : v.Natural) : v.Tokenizes := by
  induction h with
  | null =>
    intro depth rest _
    show tokens? (['n', 'u', 'l', 'l'] ++ rest) = _
    exact tokens?_keyword (by simp [keywords]) rest
  | bool value =>
    intro depth rest _
    cases value with
    | true =>
      show tokens? (['t', 'r', 'u', 'e'] ++ rest) = _
      exact tokens?_keyword (by simp [keywords]) rest
    | false =>
      show tokens? (['f', 'a', 'l', 's', 'e'] ++ rest) = _
      exact tokens?_keyword (by simp [keywords]) rest
  | number n => exact fun depth rest hrest => tokens?_digits n hrest
  | string value => exact fun depth rest _ => tokens?_quote value rest
  | array _ ih => exact tokenizes_array ih
  | object _ ih => exact tokenizes_object ih

/-- The tokens of a value are read as the value, and what follows them is left. -/
def Readable (v : Json) : Prop :=
  ∀ (fuel : Nat) (rest : List Token), 2 * v.tokens.length ≤ fuel →
    value? fuel (v.tokens ++ rest) = some (v, rest)

/-- A value starts with a token that ends nothing. -/
theorem exists_tokens_eq_cons (v : Json) :
    ∃ first more, v.tokens = first :: more ∧ first ≠ .endArray ∧ first ≠ .endObject := by
  cases v with
  | null | bool _ | number _ | string _ => exact ⟨_, _, rfl, by simp, by simp⟩
  | array items =>
    cases items with
    | nil | cons _ _ =>
      rw [tokens]
      exact ⟨_, _, rfl, by simp, by simp⟩
  | object fields =>
    cases fields with
    | nil | cons _ _ =>
      rw [tokens]
      exact ⟨_, _, rfl, by simp, by simp⟩

theorem length_tokens_pos (v : Json) : 0 < v.tokens.length := by
  obtain ⟨first, more, htokens, -⟩ := v.exists_tokens_eq_cons
  rw [htokens]
  exact Nat.succ_pos _

theorem items?_tokens {item : Json} {more : List Json}
    (h : ∀ other ∈ item :: more, other.Readable) {fuel : Nat} (rest : List Token)
    (hfuel : 2 * (item.tokens.length + (itemTokens more).length + 1) ≤ fuel + 1) :
    items? fuel (item.tokens ++ (itemTokens more ++ .endArray :: rest)) =
      some (item :: more, rest) := by
  induction more generalizing item fuel with
  | nil =>
    cases fuel with
    | zero => omega
    | succ fuel =>
      have hitem := h item List.mem_cons_self fuel (.endArray :: rest) (by omega)
      rw [items?, itemTokens, List.nil_append, hitem]
  | cons next later ih =>
    have hpos := next.length_tokens_pos
    have hposItem := item.length_tokens_pos
    rw [itemTokens, List.length_cons, List.length_append] at hfuel
    cases fuel with
    | zero => omega
    | succ fuel =>
      have hitem := h item List.mem_cons_self fuel
        (itemTokens (next :: later) ++ .endArray :: rest) (by omega)
      have hlater : items? fuel (next.tokens ++ (itemTokens later ++ .endArray :: rest)) =
          some (next :: later, rest) :=
        ih (fun other hother => h other (List.mem_cons_of_mem _ hother)) (by omega)
      rw [items?, hitem, itemTokens]
      dsimp only [List.cons_append]
      rw [List.append_assoc, hlater]
      rfl

theorem fields?_tokens {key : Option String} {value : Json} {more : List (Option String × Json)}
    (h : ∀ field ∈ (key, value) :: more, field.2.Readable) {fuel : Nat} (rest : List Token)
    (hfuel : 2 * (value.tokens.length + (fieldTokens more).length + 3) ≤ fuel + 1) :
    fields? fuel (.string key :: .colon ::
        (value.tokens ++ (fieldTokens more ++ .endObject :: rest))) =
      some ((key, value) :: more, rest) := by
  induction more generalizing key value fuel with
  | nil =>
    cases fuel with
    | zero => omega
    | succ fuel =>
      have hvalue : value.Readable := h (key, value) List.mem_cons_self
      rw [fields?, fieldTokens, List.nil_append, hvalue fuel _ (by omega)]
  | cons field later ih =>
    obtain ⟨nextKey, next⟩ := field
    rw [fieldTokens, List.length_cons, List.length_cons, List.length_cons,
      List.length_append] at hfuel
    cases fuel with
    | zero => omega
    | succ fuel =>
      have hvalue : value.Readable := h (key, value) List.mem_cons_self
      have hlater : fields? fuel (.string nextKey :: .colon ::
          (next.tokens ++ (fieldTokens later ++ .endObject :: rest))) =
            some ((nextKey, next) :: later, rest) :=
        ih (fun other hother => h other (List.mem_cons_of_mem _ hother)) (by omega)
      rw [fields?, hvalue fuel _ (by omega), fieldTokens]
      dsimp only [List.cons_append]
      rw [List.append_assoc, hlater]
      rfl

theorem value?_beginArray {fuel : Nat} {tokens : List Token}
    (h : tokens.head? ≠ some .endArray) : value? (fuel + 1) (.beginArray :: tokens) =
      (items? fuel tokens).map fun read => (.array read.1, read.2) := by
  rw [value?]
  intro rest heq
  exact h (congrArg List.head? heq)

theorem value?_beginObject {fuel : Nat} {tokens : List Token}
    (h : tokens.head? ≠ some .endObject) : value? (fuel + 1) (.beginObject :: tokens) =
      (fields? fuel tokens).map fun read => (.object read.1, read.2) := by
  rw [value?]
  intro rest heq
  exact h (congrArg List.head? heq)

/-- Only the case of one call more than nothing is left to show, as there is a token. -/
theorem readable_of_succ {v : Json} (h : ∀ (fuel : Nat) (rest : List Token),
    2 * v.tokens.length ≤ fuel + 1 → value? (fuel + 1) (v.tokens ++ rest) = some (v, rest)) :
    v.Readable := by
  intro fuel rest hfuel
  have hpos := v.length_tokens_pos
  cases fuel with
  | zero => omega
  | succ fuel => exact h fuel rest hfuel

theorem readable_array {items : List Json} (h : ∀ item ∈ items, item.Readable) :
    (Json.array items).Readable := by
  apply readable_of_succ
  intro fuel rest hfuel
  cases items with
  | nil => rfl
  | cons item more =>
    rw [tokens, List.length_cons, List.length_append, List.length_append,
      List.length_singleton] at hfuel
    have hfuelItems : 2 * (item.tokens.length + (itemTokens more).length + 1) ≤ fuel + 1 := by
      omega
    have hhead : (item.tokens ++ (itemTokens more ++ .endArray :: rest)).head? ≠
        some .endArray := by
      obtain ⟨first, others, hfirst, hne, -⟩ := item.exists_tokens_eq_cons
      rw [hfirst]
      exact fun heq => hne (Option.some.inj heq)
    rw [tokens]
    simp only [List.cons_append, List.append_assoc, List.nil_append]
    rw [value?_beginArray hhead, items?_tokens h rest hfuelItems]
    rfl

theorem readable_object {fields : List (Option String × Json)}
    (h : ∀ field ∈ fields, field.2.Readable) : (Json.object fields).Readable := by
  apply readable_of_succ
  intro fuel rest hfuel
  cases fields with
  | nil => rfl
  | cons field more =>
    obtain ⟨key, value⟩ := field
    rw [tokens, List.length_cons, List.length_cons, List.length_cons, List.length_append,
      List.length_append, List.length_singleton] at hfuel
    have hfuelFields : 2 * (value.tokens.length + (fieldTokens more).length + 3) ≤ fuel + 1 := by
      omega
    rw [tokens]
    simp only [List.cons_append, List.append_assoc, List.nil_append]
    rw [value?_beginObject (by simp), fields?_tokens h rest hfuelFields]
    rfl

theorem Natural.readable {v : Json} (h : v.Natural) : v.Readable := by
  induction h with
  | null | bool _ | number _ | string _ => exact readable_of_succ fun fuel rest _ => rfl
  | array _ ih => exact readable_array ih
  | object _ ih => exact readable_object ih

/-- Reading the text of a value gives the value back. -/
theorem ofText?_pretty {v : Json} (h : v.Natural) (depth : Nat) :
    ofText? (String.ofList (v.pretty depth)) = some v := by
  have htokens := h.tokenizes depth [] apart_nil
  rw [List.append_nil, tokens?_nil, Option.map_some, List.append_nil] at htokens
  have hread := h.readable (2 * v.tokens.length) [] (Nat.le_refl _)
  rw [List.append_nil] at hread
  unfold ofText?
  rw [String.toList_ofList, htokens]
  dsimp only
  rw [hread]

end AccumulatorMachine.Json
