import AccumulatorMachine.Source.Strip

/-!
Where the characters of the stripped text stand in the text as it was written. What was taken away is
looked for in its own right, as spans of byte offsets. A walk over the text compares the offset of
each character with the first span that is not yet behind, and counts lines and columns.
-/
namespace AccumulatorMachine.Source

/-- A place in a text. Lines and columns count characters and start from one. -/
structure Location where
  line : Nat
  column : Nat
deriving DecidableEq, Repr

namespace Location

/-- The place of the first character. -/
def start : Location := ⟨1, 1⟩

/-- The place after a character. Only a line feed begins a new line. -/
def after (place : Location) (c : Char) : Location :=
  if c = '\n' then ⟨place.line + 1, 1⟩ else ⟨place.line, place.column + 1⟩

def text (place : Location) : String :=
  s!"{place.line}:{place.column}"

end Location

/-- The offsets from one on, up to but not including another. -/
structure Span where
  start : Nat
  stop : Nat
deriving DecidableEq, Repr

/-- The number of bytes that characters take. -/
def byteSize (chars : List Char) : Nat :=
  (String.ofList chars).utf8ByteSize

/-- The comment that a text starts with. -/
def comment? : List Char → Option (List Char)
  | [] => none
  | c :: rest =>
    if c = '#' ∧ rest.contains '#' then some ('#' :: (rest.takeWhile (· != '#') ++ ['#'])) else none

/-- The white space that a text starts with. -/
def blanks? (chars : List Char) : Option (List Char) :=
  let run := chars.takeWhile Text.isBlank
  if run.isEmpty then none else some run

/-- What a text starts with and is to be taken away. -/
def piece? (chars : List Char) : Option (List Char) :=
  (comment? chars).or (blanks? chars)

theorem length_pos_of_piece? {chars piece : List Char} (h : piece? chars = some piece) :
    0 < piece.length := by
  rcases Option.or_eq_some_iff.mp h with hcomment | ⟨-, hblanks⟩
  · unfold comment? at hcomment
    split at hcomment
    · cases hcomment
    · split at hcomment
      · obtain rfl := Option.some.inj hcomment
        exact Nat.succ_pos _
      · cases hcomment
  · unfold blanks? at hblanks
    dsimp only at hblanks
    split at hblanks
    · cases hblanks
    · rename_i hne
      obtain rfl := Option.some.inj hblanks
      exact List.length_pos_iff.mpr (by simpa using hne)

theorem length_drop_piece? {c : Char} {rest piece : List Char}
    (h : piece? (c :: rest) = some piece) :
    ((c :: rest).drop piece.length).length < (c :: rest).length := by
  have hpos := length_pos_of_piece? h
  rw [List.length_drop, List.length_cons]
  omega

/-- The spans of what is taken away, in a text that begins at `offset`: from left to right, each
looked for behind the one before. -/
def removals (offset : Nat) (chars : List Char) : List Span :=
  match chars with
  | [] => []
  | c :: rest => match h : piece? (c :: rest) with
    | some piece =>
      have := length_drop_piece? h
      ⟨offset, offset + byteSize piece⟩ ::
        removals (offset + byteSize piece) ((c :: rest).drop piece.length)
    | none => removals (offset + c.utf8Size) rest
termination_by chars.length
decreasing_by
  · assumption
  · exact Nat.lt_succ_self _

/-- A walk over a text: the spans not known to be behind, the offset and the place of the next
character, and the places of the characters that were kept. -/
structure Walk where
  removed : List Span
  offset : Nat := 0
  place : Location := .start
  code : Array Location := #[]

/-- Passes a character, which is kept if it stands before the next span that is not behind. -/
def Walk.pass (walk : Walk) (c : Char) : Walk :=
  let removed := walk.removed.dropWhile fun span => decide (span.stop ≤ walk.offset)
  let kept := removed.head?.all fun span => decide (walk.offset < span.start)
  { removed
    offset := walk.offset + c.utf8Size
    place := walk.place.after c
    code := if kept then walk.code.push walk.place else walk.code }

/-- The places of the stripped characters, and the place behind the last character of the source. -/
structure LineMap where
  code : Array Location
  finish : Location
deriving DecidableEq, Repr

namespace LineMap

def ofSource (source : String) : LineMap :=
  let walk := source.toList.foldl Walk.pass { removed := removals 0 source.toList }
  ⟨walk.code, walk.place⟩

/-- The place of the stripped character at `position`; past the last one, the end of the source. -/
def locate (map : LineMap) (position : Nat) : Location :=
  map.code.getD position map.finish

end LineMap

end AccumulatorMachine.Source
