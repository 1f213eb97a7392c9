/-!
White space: the characters with the Unicode property `White_Space`, and the words between them.
-/
namespace AccumulatorMachine.Text

/-- The code points with the property `White_Space`, as closed ranges in ascending order. -/
def blankRanges : List (Nat × Nat) :=
  [(0x09, 0x0D), (0x20, 0x20), (0x85, 0x85), (0xA0, 0xA0), (0x1680, 0x1680), (0x2000, 0x200A),
    (0x2028, 0x2029), (0x202F, 0x202F), (0x205F, 0x205F), (0x3000, 0x3000)]

def isBlank (c : Char) : Bool :=
  blankRanges.any fun range => decide (range.1 ≤ c.toNat) && decide (c.toNat ≤ range.2)

/-- The maximal runs of characters that are no blanks, in order. -/
def words (text : String) : List String :=
  ((text.toList.splitOnP isBlank).filter fun word => !word.isEmpty).map String.ofList

/-- There is nothing but white space in the text. -/
def isAllBlank (text : String) : Bool :=
  text.toList.all isBlank

example : blankRanges.foldl (fun n range => n + (range.2 + 1 - range.1)) 0 = 25 := rfl

end AccumulatorMachine.Text
