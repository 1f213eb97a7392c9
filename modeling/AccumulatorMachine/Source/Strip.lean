import AccumulatorMachine.Text.Blank

/-!
The code inside a source text. White space separates nothing, and a comment runs from one `#` to the
next, over line ends too. A `#` with no other behind it opens no comment and stays.
-/
namespace AccumulatorMachine.Source

/-- Tells for each character of a text whether it is code; `inComment` says that the text starts
inside a comment. -/
def mask (inComment : Bool) : List Char → List Bool
  | [] => []
  | c :: rest =>
    if inComment then false :: mask (c != '#') rest
    else if c = '#' then
      if rest.contains '#' then false :: mask true rest else true :: mask false rest
    else (!Text.isBlank c) :: mask false rest

/-- The items that stand where the mask is true. -/
def select {α : Type} (items : List α) (mask : List Bool) : List α :=
  (items.zip mask).filterMap fun pair => if pair.2 then some pair.1 else none

/-- The text without its white space and comments. -/
def strip (source : String) : List Char :=
  select source.toList (mask false source.toList)

end AccumulatorMachine.Source
