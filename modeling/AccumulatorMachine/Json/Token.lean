/-!
The tokens of a JSON text.
-/
namespace AccumulatorMachine.Json

inductive Token where
  | beginObject
  | endObject
  | beginArray
  | endArray
  | colon
  | comma
  | null
  | bool (value : Bool)
  | number (literal : List Char)
  | string (value : Option String)
deriving DecidableEq

/-- What a string literal is made of: characters, and halves of surrogate pairs that were escaped. -/
inductive Unit16 where
  | char (c : Char)
  | surrogate (code : Nat)
deriving DecidableEq

def Unit16.ofCode (code : Nat) : Unit16 :=
  if 0xD800 ≤ code ∧ code < 0xE000 then .surrogate code else .char (Char.ofNat code)

/-- Joins the halves of surrogate pairs. There is no text if one stands alone. -/
def joinPairs : List Unit16 → Option (List Char)
  | [] => some []
  | .char c :: rest => (joinPairs rest).map (c :: ·)
  | .surrogate high :: .surrogate low :: rest =>
    if high < 0xDC00 ∧ 0xDC00 ≤ low then
      (joinPairs rest).map
        (Char.ofNat (0x10000 + (high - 0xD800) * 0x400 + (low - 0xDC00)) :: ·)
    else none
  | .surrogate _ :: _ => none

def hexValue? (c : Char) : Option Nat :=
  if '0' ≤ c ∧ c ≤ '9' then some (c.toNat - '0'.toNat)
  else if 'a' ≤ c ∧ c ≤ 'f' then some (c.toNat - 'a'.toNat + 10)
  else if 'A' ≤ c ∧ c ≤ 'F' then some (c.toNat - 'A'.toNat + 10)
  else none

/-- The code that four hexadecimal digits give. -/
def hexCode? (a b c d : Char) : Option Nat :=
  match hexValue? a, hexValue? b, hexValue? c, hexValue? d with
  | some a, some b, some c, some d => some (((a * 16 + b) * 16 + c) * 16 + d)
  | _, _, _, _ => none

/-- The character that an escape by one letter stands for. -/
def unescape? : Char → Option Char
  | '"' => some '"'
  | '\\' => some '\\'
  | '/' => some '/'
  | 'b' => some '\x08'
  | 'f' => some '\x0c'
  | 'n' => some '\n'
  | 'r' => some '\r'
  | 't' => some '\t'
  | _ => none

/-- Reads a string literal behind its opening quote: its units, and what follows the closing one. -/
def stringUnits? : List Char → Option (List Unit16 × List Char)
  | [] => none
  | '"' :: rest => some ([], rest)
  | '\\' :: 'u' :: a :: b :: c :: d :: rest =>
    match hexCode? a b c d, stringUnits? rest with
    | some code, some (units, left) => some (.ofCode code :: units, left)
    | _, _ => none
  | '\\' :: letter :: rest =>
    match unescape? letter, stringUnits? rest with
    | some c, some (units, left) => some (.char c :: units, left)
    | _, _ => none
  | c :: rest =>
    if c.toNat < 0x20 ∨ c = '\\' then none
    else (stringUnits? rest).map fun (units, left) => (.char c :: units, left)

/-- A run of digits that must not be empty. -/
def digits? (text : List Char) : Option (List Char) :=
  let run := text.takeWhile Char.isDigit
  if run.isEmpty then none else some run

/-- The whole part of a number: `0`, or digits that do not start with it. -/
def wholePart? : List Char → Option (List Char)
  | '0' :: _ => some ['0']
  | text => digits? text

/-- The fraction of a number, if a point introduces one. -/
def fractionPart? : List Char → Option (List Char)
  | '.' :: rest => (digits? rest).map ('.' :: ·)
  | _ => some []

/-- The exponent of a number, if a letter introduces one. -/
def exponentPart? : List Char → Option (List Char)
  | mark :: rest =>
    if mark = 'e' ∨ mark = 'E' then match rest with
      | '+' :: digits => (digits? digits).map fun run => mark :: '+' :: run
      | '-' :: digits => (digits? digits).map fun run => mark :: '-' :: run
      | _ => (digits? rest).map (mark :: ·)
    else some []
  | [] => some []

/-- The number without sign at the start of a text. -/
def magnitude? (text : List Char) : Option (List Char) :=
  match wholePart? text with
  | none => none
  | some whole => match fractionPart? (text.drop whole.length) with
    | none => none
    | some fraction => match exponentPart? (text.drop (whole.length + fraction.length)) with
      | none => none
      | some exponent => some (whole ++ fraction ++ exponent)

/-- The number at the start of a text. -/
def number? : List Char → Option (List Char)
  | '-' :: rest => (magnitude? rest).map ('-' :: ·)
  | text => magnitude? text

/-- The characters that separate tokens. -/
def isSpace (c : Char) : Bool :=
  c == ' ' || c == '\n' || c == '\t' || c == '\r'

/-- The token that a single character is. -/
def mark? : Char → Option Token
  | '\x7b' => some .beginObject
  | '\x7d' => some .endObject
  | '[' => some .beginArray
  | ']' => some .endArray
  | ':' => some .colon
  | ',' => some .comma
  | _ => none

/-- The words with a meaning of their own. -/
def keywords : List (List Char × Token) :=
  [(['n', 'u', 'l', 'l'], .null), (['t', 'r', 'u', 'e'], .bool true),
    (['f', 'a', 'l', 's', 'e'], .bool false)]

/-- The token at the start of a text, and what follows it. -/
def token? (text : List Char) : Option (Token × List Char) :=
  match text with
  | [] => none
  | c :: rest =>
    if c = '"' then (stringUnits? rest).map fun (units, left) =>
      (.string ((joinPairs units).map String.ofList), left)
    else match mark? c with
      | some token => some (token, rest)
      | none => match keywords.find? fun entry => entry.1.isPrefixOf text with
        | some (word, token) => some (token, text.drop word.length)
        | none => (number? text).map fun literal => (.number literal, text.drop literal.length)

theorem length_stringUnits?_lt {text left : List Char} {units : List Unit16}
    (h : stringUnits? text = some (units, left)) : left.length < text.length := by
  fun_induction stringUnits? text generalizing units left with
  | case1 => cases h
  | case2 rest => grind
  | case3 a b c d rest code u l hrest _ ih =>
    cases h
    have := ih hrest
    simp only [List.length_cons]
    omega
  | case4 => cases h
  | case5 letter rest _ c u l hrest _ ih =>
    cases h
    have := ih hrest
    simp only [List.length_cons]
    omega
  | case6 => cases h
  | case7 => cases h
  | case8 c rest _ _ _ _ ih =>
    obtain ⟨⟨u, l⟩, hrest, he⟩ := Option.map_eq_some_iff.1 h
    cases he
    have := ih hrest
    simp only [List.length_cons]
    omega

theorem digits?_ne_nil {text run : List Char} (h : digits? text = some run) : run ≠ [] := by
  rw [digits?] at h
  grind

theorem wholePart?_ne_nil {text whole : List Char} (h : wholePart? text = some whole) :
    whole ≠ [] := by
  unfold wholePart? at h
  split at h
  · cases h
    exact List.cons_ne_nil _ _
  · exact digits?_ne_nil h

theorem magnitude?_ne_nil {text literal : List Char} (h : magnitude? text = some literal) :
    literal ≠ [] := by
  unfold magnitude? at h
  split at h
  · cases h
  rename_i whole hwhole
  split at h
  · cases h
  split at h
  · cases h
  cases h
  simp [wholePart?_ne_nil hwhole]

theorem number?_ne_nil {text literal : List Char} (h : number? text = some literal) :
    literal ≠ [] := by
  unfold number? at h
  split at h
  · obtain ⟨run, -, rfl⟩ := Option.map_eq_some_iff.1 h
    exact List.cons_ne_nil _ _
  · exact magnitude?_ne_nil h

theorem length_token?_lt {text left : List Char} {token : Token}
    (h : token? text = some (token, left)) : left.length < text.length := by
  have hk : ∀ entry ∈ keywords, 0 < entry.1.length := by decide
  unfold token? at h
  split at h
  · cases h
  rename_i c rest
  split at h
  · obtain ⟨⟨units, l⟩, hu, he⟩ := Option.map_eq_some_iff.1 h
    have := length_stringUnits?_lt hu
    grind
  split at h
  · grind
  split at h
  · rename_i word t hfound
    have := hk _ (List.mem_of_find?_eq_some hfound)
    grind
  · obtain ⟨literal, hl, he⟩ := Option.map_eq_some_iff.1 h
    have := List.length_pos_iff.2 (number?_ne_nil hl)
    grind

/-- The tokens of a text, if it has nothing but tokens and the spaces between them. -/
def tokens? (text : List Char) : Option (List Token) :=
  match text with
  | [] => some []
  | c :: rest =>
    if isSpace c then tokens? rest
    else match h : token? (c :: rest) with
      | none => none
      | some (token, left) =>
        have := length_token?_lt h
        (tokens? left).map (token :: ·)
termination_by text.length
decreasing_by
  · exact Nat.lt_succ_self rest.length
  · assumption

end AccumulatorMachine.Json
