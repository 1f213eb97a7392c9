/-!
Decimal numbers: writing natural numbers and signed words, and reading them back. A word has 64
bits; what does not fit is refused, never reduced.
-/
namespace AccumulatorMachine.Decimal

/-- One more than the greatest unsigned word. -/
def wordLimit : Nat := 0x10000000000000000

/-- One more than the greatest signed word; its negation is the least one. -/
def signedLimit : Nat := 0x8000000000000000

def digits (n : Nat) : List Char :=
  Nat.toDigits 10 n

/-- The digits of a number without leading zeros, behind `-` if it is negative. -/
def signed (value : Int) : List Char :=
  if value < 0 then '-' :: digits value.natAbs else digits value.natAbs

def ofNat (n : Nat) : String :=
  String.ofList (digits n)

def ofWord (value : Int64) : String :=
  String.ofList (signed value.toInt)

/-- Reads one or more digits. -/
def nat? (text : List Char) : Option Nat :=
  if text.isEmpty || !text.all Char.isDigit then none else some (Nat.ofDigitChars 10 text 0)

/-- Reads an unsigned word: digits, behind at most one `+`. -/
def unsigned? (text : List Char) : Option Nat :=
  let unsignedText := match text with
    | '+' :: rest => rest
    | _ => text
  (nat? unsignedText).filter (· < wordLimit)

/-- Reads a signed word: digits, behind at most one `-`. -/
def word? (text : List Char) : Option Int64 :=
  match text with
  | '-' :: rest => (nat? rest).bind fun n =>
      if n ≤ signedLimit then some (Int64.ofInt (-(n : Int))) else none
  | _ => (nat? text).bind fun n =>
      if n < signedLimit then some (Int64.ofNat n) else none

end AccumulatorMachine.Decimal
