import AccumulatorMachine.Text.Decimal

/-!
Output: what a program writes, item by item, and its text.
-/
namespace AccumulatorMachine

inductive Emission where
  /-- A character by its code. -/
  | char (code : Int64)
  | number (value : Int64)
deriving DecidableEq

namespace Emission

/-- The character with a code; what is no scalar value gives the replacement character. -/
def scalar (code : Int64) : Char :=
  if 0 ≤ code.toInt ∧ code.toInt.toNat.isValidChar then Char.ofNat code.toInt.toNat
  else Char.ofNat 0xFFFD

def text : Emission → String
  | .char code => (scalar code).toString
  | .number value => Decimal.ofWord value

/-- A text as it is written, one character after the other. -/
def ofText (text : String) : List Emission :=
  text.toList.map fun c => .char (Int64.ofNat c.toNat)

end Emission

/-- What was written and not yet taken away, the newest item first. -/
structure Output where
  newest : List Emission := []
deriving DecidableEq

namespace Output

/-- The items in the order in which they were written. -/
def items (output : Output) : List Emission :=
  output.newest.reverse

def put (output : Output) (written : List Emission) : Output :=
  ⟨written.reverse ++ output.newest⟩

def contents (output : Output) : String :=
  String.join (output.items.map Emission.text)

/-- Takes away all that was written. -/
def take (output : Output) : String × Output :=
  (output.contents, {})

@[simp]
theorem items_put (output : Output) (written : List Emission) :
    (output.put written).items = output.items ++ written := by
  simp [items, put]

end Output

end AccumulatorMachine
