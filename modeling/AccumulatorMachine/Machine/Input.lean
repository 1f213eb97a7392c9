import AccumulatorMachine.Tape

/-!
Input: the codes of a text's characters, then zeros without end.
-/
namespace AccumulatorMachine

/-- A source of codes: one that never had any, or a text with the place reached in it. -/
inductive Input where
  | exhausted
  | text (tape : Tape Char)
deriving DecidableEq

namespace Input

def ofString (text : String) : Input :=
  .text (.ofArray text.toList.toArray)

def code (c : Char) : Int64 :=
  Int64.ofNat c.toNat

/-- The next code, and the input after it. -/
def next : Input → Int64 × Input
  | .exhausted => (0, .exhausted)
  | .text tape => match tape.read with
    | .ok (c, rest) => (code c, .text rest)
    | .error _ => (0, .text tape)

/-- The same input from its first character on. -/
def rewind : Input → Input
  | .exhausted => .exhausted
  | .text tape => .text tape.rewind

/-- The first codes, as many as asked for. -/
def codes (input : Input) : Nat → List Int64
  | 0 => []
  | n + 1 => input.next.1 :: input.next.2.codes n

end Input

end AccumulatorMachine
