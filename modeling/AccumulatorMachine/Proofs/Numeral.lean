import AccumulatorMachine.Text.Decimal
import Mathlib.Data.List.Infix

/-!
Numerals, the texts of signed words: an optional sign and digits, zeros in front allowed, whose
value fits a word. Reading a word accepts exactly the numerals, and writing one gives a numeral.
-/
namespace AccumulatorMachine

/-- A run of characters of a kind ends where a text goes on with another kind. -/
theorem takeWhile_append_exact {p : Char → Bool} {run rest : List Char}
    (hrun : ∀ c ∈ run, p c = true) (hrest : ∀ c ∈ rest.head?, p c = false) :
    (run ++ rest).takeWhile p = run := by
  rw [List.takeWhile_append_of_pos hrun]
  have hnil : rest.takeWhile p = [] := by
    cases rest with
    | nil => rfl
    | cons c tail => exact List.takeWhile_cons_of_neg (by simp [hrest c rfl])
  rw [hnil, List.append_nil]

/-- The longest start of a text that is a `-`, which can be missing, and digits. -/
def numberText : List Char → List Char
  | '-' :: rest => '-' :: rest.takeWhile Char.isDigit
  | text => text.takeWhile Char.isDigit

namespace Decimal

/-- The value of digits behind an optional sign. -/
def signedValue (negative : Bool) (digits : List Char) : Int :=
  if negative then -(Nat.ofDigitChars 10 digits 0 : Int) else Nat.ofDigitChars 10 digits 0

@[ext]
structure Numeral where
  negative : Bool
  digits : List Char
  ne_nil : digits ≠ []
  isDigit : ∀ c ∈ digits, c.isDigit = true
  ge_min : Int64.minValue.toInt ≤ signedValue negative digits
  le_max : signedValue negative digits ≤ Int64.maxValue.toInt

namespace Numeral

def text (n : Numeral) : List Char :=
  (if n.negative then ['-'] else []) ++ n.digits

def word (n : Numeral) : Int64 :=
  Int64.ofInt (signedValue n.negative n.digits)

theorem toInt_word (n : Numeral) : n.word.toInt = signedValue n.negative n.digits :=
  Int64.toInt_ofInt_of_le n.ge_min (Int.lt_add_one_of_le n.le_max)

end Numeral

theorem nat?_of_digits {digits : List Char} (hne : digits ≠ [])
    (hd : ∀ c ∈ digits, c.isDigit = true) :
    nat? digits = some (Nat.ofDigitChars 10 digits 0) := by
  have hall : digits.all Char.isDigit = true := List.all_eq_true.mpr hd
  simp [nat?, hne, hall]

theorem digits_of_nat? {text : List Char} {n : Nat} (h : nat? text = some n) :
    text ≠ [] ∧ (∀ c ∈ text, c.isDigit = true) ∧ n = Nat.ofDigitChars 10 text 0 := by
  unfold nat? at h
  split at h
  · cases h
  · rename_i hcond
    simp only [Bool.or_eq_true, List.isEmpty_iff, Bool.not_eq_true', not_or,
      Bool.not_eq_false] at hcond
    exact ⟨hcond.1, List.all_eq_true.mp hcond.2, (Option.some.inj h).symm⟩

theorem not_isDigit_minus : Char.isDigit '-' = false :=
  rfl

theorem word?_minus (rest : List Char) : word? ('-' :: rest) = (nat? rest).bind fun n =>
    if n ≤ signedLimit then some (Int64.ofInt (-(n : Int))) else none :=
  rfl

theorem word?_of_head_ne {text : List Char} (h : text.head? ≠ some '-') :
    word? text = (nat? text).bind fun n =>
      if n < signedLimit then some (Int64.ofNat n) else none := by
  unfold word?
  split
  · simp at h
  · rfl

theorem head?_digits_ne {digits : List Char} (hd : ∀ c ∈ digits, c.isDigit = true) :
    digits.head? ≠ some '-' := by
  intro hhead
  have hminus := hd '-' (List.mem_of_head? hhead)
  rw [not_isDigit_minus] at hminus
  cases hminus

theorem toInt_minValue : Int64.minValue.toInt = -(signedLimit : Int) :=
  rfl

theorem toInt_maxValue : Int64.maxValue.toInt = (signedLimit : Int) - 1 :=
  rfl

theorem word?_text (n : Numeral) : word? n.text = some n.word := by
  obtain ⟨negative, digits, hne, hd, hmin, hmax⟩ := n
  have hnat := nat?_of_digits hne hd
  cases negative with
  | true =>
    have hle : Nat.ofDigitChars 10 digits 0 ≤ signedLimit := by
      simp only [signedValue, if_true, toInt_minValue] at hmin
      omega
    change word? ('-' :: digits) = _
    rw [word?_minus, hnat, Option.bind_some, if_pos hle]
    rfl
  | false =>
    have hlt : Nat.ofDigitChars 10 digits 0 < signedLimit := by
      simp only [signedValue, Bool.false_eq_true, if_false, toInt_maxValue] at hmax
      omega
    change word? digits = _
    rw [word?_of_head_ne (head?_digits_ne hd), hnat, Option.bind_some, if_pos hlt]
    rfl

/-- Only numerals are read. -/
theorem exists_numeral_of_word? {text : List Char} {value : Int64} (h : word? text = some value) :
    ∃ n : Numeral, n.text = text ∧ n.word = value := by
  by_cases hminus : text.head? = some '-'
  · obtain ⟨digits, rfl⟩ := List.head?_eq_some_iff.mp hminus
    rw [word?_minus] at h
    obtain ⟨n, hn, hvalue⟩ := Option.bind_eq_some_iff.mp h
    obtain ⟨hne, hd, rfl⟩ := digits_of_nat? hn
    split at hvalue
    · rename_i hle
      have hpos : 0 < signedLimit := by decide
      refine ⟨⟨true, digits, hne, hd, ?_, ?_⟩, rfl, Option.some.inj hvalue⟩
      · simp only [signedValue, if_true, toInt_minValue]
        omega
      · simp only [signedValue, if_true, toInt_maxValue]
        omega
    · cases hvalue
  · rw [word?_of_head_ne hminus] at h
    obtain ⟨n, hn, hvalue⟩ := Option.bind_eq_some_iff.mp h
    obtain ⟨hne, hd, rfl⟩ := digits_of_nat? hn
    split at hvalue
    · rename_i hlt
      refine ⟨⟨false, text, hne, hd, ?_, ?_⟩, rfl, Option.some.inj hvalue⟩
      · simp only [signedValue, Bool.false_eq_true, if_false, toInt_minValue]
        omega
      · simp only [signedValue, Bool.false_eq_true, if_false, toInt_maxValue]
        omega
    · cases hvalue

theorem numberText_append (n : Numeral) {rest : List Char}
    (hrest : ∀ c ∈ rest.head?, c.isDigit = false) : numberText (n.text ++ rest) = n.text := by
  obtain ⟨negative, digits, hne, hd, hmin, hmax⟩ := n
  have htake := takeWhile_append_exact hd hrest
  cases negative with
  | true =>
    change '-' :: (digits ++ rest).takeWhile Char.isDigit = '-' :: digits
    rw [htake]
  | false =>
    change numberText (digits ++ rest) = digits
    have hhead : (digits ++ rest).head? ≠ some '-' := by
      rw [List.head?_append_of_ne_nil _ hne]
      exact head?_digits_ne hd
    unfold numberText
    split
    · rename_i heq
      rw [heq] at hhead
      simp at hhead
    · exact htake

theorem text_injective {n m : Numeral} (h : n.text = m.text) : n = m := by
  have hhead (k : Numeral) : k.text.head? = some '-' ↔ k.negative = true := by
    obtain ⟨negative, digits, hne, hd, hmin, hmax⟩ := k
    cases negative with
    | true => simp [Numeral.text]
    | false => simpa [Numeral.text] using head?_digits_ne hd
  have hsign : n.negative = m.negative := by
    rw [Bool.eq_iff_iff, ← hhead, ← hhead, h]
  apply Numeral.ext hsign
  unfold Numeral.text at h
  rwa [hsign, List.append_cancel_left_eq] at h

/-- Where no digit follows, the numeral at the start of a text is the only one. -/
theorem text_append_injective {n m : Numeral} {rest rest' : List Char}
    (hrest : ∀ c ∈ rest.head?, c.isDigit = false) (hrest' : ∀ c ∈ rest'.head?, c.isDigit = false)
    (h : n.text ++ rest = m.text ++ rest') : n = m ∧ rest = rest' := by
  have htext : n.text = m.text := by
    rw [← numberText_append n hrest, h, numberText_append m hrest']
  refine ⟨text_injective htext, ?_⟩
  rwa [htext, List.append_cancel_left_eq] at h

theorem digits_ne_nil (n : Nat) : digits n ≠ [] :=
  Nat.toDigits_ne_nil

theorem isDigit_of_mem_digits {n : Nat} {c : Char} (h : c ∈ digits n) : c.isDigit = true :=
  Nat.isDigit_of_mem_toDigits (by decide) (by decide) h

theorem nat?_digits (n : Nat) : nat? (digits n) = some n := by
  rw [nat?_of_digits (digits_ne_nil n) fun _ => isDigit_of_mem_digits]
  exact congrArg some Nat.ofDigitChars_ten_toDigits

theorem signedValue_digits_natAbs (value : Int) :
    signedValue (decide (value < 0)) (digits value.natAbs) = value := by
  unfold signedValue digits
  rw [Nat.ofDigitChars_ten_toDigits]
  split
  · rename_i hneg
    have hlt : value < 0 := of_decide_eq_true hneg
    omega
  · rename_i hneg
    have hge : ¬value < 0 := by simpa using hneg
    omega

/-- The numeral that a word is written as. -/
def Numeral.ofWord (value : Int64) : Numeral where
  negative := decide (value.toInt < 0)
  digits := Decimal.digits value.toInt.natAbs
  ne_nil := digits_ne_nil _
  isDigit := fun _ => isDigit_of_mem_digits
  ge_min := by rw [signedValue_digits_natAbs]; exact value.le_toInt
  le_max := by rw [signedValue_digits_natAbs]; exact value.toInt_le

theorem text_numeral_ofWord (value : Int64) :
    (Numeral.ofWord value).text = (ofWord value).toList := by
  unfold ofWord signed Numeral.text Numeral.ofWord
  rw [String.toList_ofList]
  by_cases hneg : value.toInt < 0
  · simp [hneg]
  · simp [hneg]

theorem word_numeral_ofWord (value : Int64) : (Numeral.ofWord value).word = value := by
  have hvalue : (Numeral.ofWord value).word.toInt = value.toInt := by
    rw [Numeral.toInt_word]
    exact signedValue_digits_natAbs value.toInt
  exact Int64.toInt_inj.mp hvalue

theorem ofWord_ne_nil (value : Int64) : (ofWord value).toList ≠ [] := by
  rw [← text_numeral_ofWord]
  exact List.append_ne_nil_of_right_ne_nil _ (Numeral.ofWord value).ne_nil

/-- Where no digit follows, the word at the start of a text is the only one. -/
theorem ofWord_append_injective {value other : Int64} {rest rest' : List Char}
    (hrest : ∀ c ∈ rest.head?, c.isDigit = false) (hrest' : ∀ c ∈ rest'.head?, c.isDigit = false)
    (h : (ofWord value).toList ++ rest = (ofWord other).toList ++ rest') :
    value = other ∧ rest = rest' := by
  rw [← text_numeral_ofWord, ← text_numeral_ofWord] at h
  obtain ⟨hnumeral, hr⟩ := text_append_injective hrest hrest' h
  refine ⟨?_, hr⟩
  rw [← word_numeral_ofWord value, hnumeral, word_numeral_ofWord]

theorem ofWord_injective : Function.Injective ofWord := by
  intro value other h
  have hnone : ∀ c ∈ ([] : List Char).head?, c.isDigit = false := by simp
  exact (ofWord_append_injective hnone hnone (by rw [h])).1

end Decimal

end AccumulatorMachine
