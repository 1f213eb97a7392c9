import AccumulatorMachine.Block
import AccumulatorMachine.Source.Strip
import AccumulatorMachine.Tape

/-!
Reading blocks from the stripped source, which is a tape of characters. A mnemonic is found by
reading ahead as far as one could go on, and going back to the end of the longest one passed. An
error leaves the scan where the reader was when it gave up, so that reading can go on from there. A
block that was read is never empty, which is why reading all of them ends.
-/
namespace AccumulatorMachine

/-- The stripped source, with the place that reading has come to. -/
abbrev Scan := Tape Char

/-- The characters that no mnemonic holds: each begins an argument, or what follows one. -/
def isTerminator (c : Char) : Bool :=
  c.isDigit || (Register.ofSymbol? c).isSome || [':', '\'', '*', ';', '-'].contains c

namespace Scan

variable {α β : Type}

/-- What a reader returns, and where it leaves the scan. -/
abbrev Reading (α : Type) := Except BlockError α × Scan

namespace Reading

/-- Goes on behind what was read. An error ends the reading where it is. -/
def bind (reading : Reading α) (next : α → Scan → Reading β) : Reading β :=
  match reading with
  | (.ok value, s) => next value s
  | (.error e, s) => (.error e, s)

def map (f : α → β) (reading : Reading α) : Reading β :=
  (reading.1.map f, reading.2)

end Reading

def ofSource (source : String) : Scan :=
  .ofArray (Source.strip source).toArray

/-- Reads a character, which has to be there. -/
def readChar (s : Scan) : Reading Char :=
  match s.read with
  | .ok (c, next) => (.ok c, next)
  | .error place => (.error (.endOfSource place), s)

/-- Passes a character, if it comes next. -/
def skipChar (c : Char) (s : Scan) : Bool × Scan :=
  if s.peek? = some c then (true, s.readChar.2) else (false, s)

/-- Reads a tag name and the colon behind it. -/
def readName (s : Scan) : Reading String :=
  let name := s.readWhile (· != ':')
  match name.2.read with
  | .ok (_, next) => (.ok (String.ofList name.1), next)
  | .error _ => (.error (.unclosedTag s.position), name.2)

/-- What was read ahead, the longest word of a table at its start, and where reading has come to. -/
structure Lookahead (α : Type) where
  taken : List Char
  best : Option (MnemonicTable.Match α)
  scan : Scan

/-- Reads ahead from what is taken already, as long as some word of the table goes on with the next
character. No terminator is taken. -/
def readAhead (table : MnemonicTable α) (taken : List Char)
    (best : Option (MnemonicTable.Match α)) (s : Scan) : Lookahead α :=
  match h : s.read with
  | .error _ => ⟨taken, best, s⟩
  | .ok (c, next) =>
    if isTerminator c then ⟨taken, best, s⟩
    else
      let longer := taken ++ [c]
      if next.peek?.any fun d => (table.continuations longer).contains d then
        have := Tape.left_of_read h
        readAhead table longer (table.record longer best) next
      else ⟨longer, table.record longer best, next⟩
termination_by s.size - s.position
decreasing_by assumption

/-- The text to name when no word was found: what was taken, with the rest of its run of characters
that are no terminators, or the character that nothing was taken for. -/
def Lookahead.unknown (ahead : Lookahead α) : List Char × Scan :=
  if ahead.taken.isEmpty then (ahead.scan.peek?.toList, ahead.scan)
  else
    let run := ahead.scan.readWhile fun c => !isTerminator c
    (ahead.taken ++ run.1, run.2)

/-- Reads a word of a table: goes back from what was read ahead to the end of the longest one. -/
def readMnemonic (table : MnemonicTable α) (s : Scan) : Reading α :=
  let ahead := readAhead table [] none s
  match ahead.best with
  | some found => (.ok found.value, ahead.scan.back (ahead.taken.length - found.length))
  | none =>
    (.error (.unknownMnemonic (String.ofList ahead.unknown.1) s.position), ahead.unknown.2)

/-- Reads a number: a `-`, which can be missing, and digits. -/
def readNumber (s : Scan) : Reading Argument :=
  let sign := s.skipChar '-'
  let digits := sign.2.readWhile Char.isDigit
  let text := if sign.1 then '-' :: digits.1 else digits.1
  match Decimal.word? text with
  | some value => (.ok (.literal value), digits.2)
  | none => (.error (.badNumber (String.ofList text) s.position), digits.2)

/-- Reads a character between quotes. The character that closes the quote can be any. -/
def readQuoted (s : Scan) : Reading Argument :=
  s.readChar.bind fun _ opened =>
    opened.readChar.bind fun c quoted =>
      quoted.readChar.map fun _ => .literal (Int64.ofNat c.toNat)

def readRegister (s : Scan) : Reading Argument :=
  s.readChar.bind fun symbol next => match Register.ofSymbol? symbol with
    | some r => (.ok (.register r), next)
    | none => (.error (.unknownRegister symbol s.position), next)

/-- Reads an argument: a number, a character between quotes, a tag name between colons, or a
register. -/
def readArgument (s : Scan) : Reading Argument :=
  if s.peek?.any fun c => c.isDigit || c == '-' then s.readNumber
  else if s.peek? = some '\'' then s.readQuoted
  else if s.peek? = some ':' then s.readChar.bind fun _ opened => opened.readName.map .tag
  else s.readRegister

/-- Ends an action: a `*` makes it a breakpoint, and a `;` can follow. -/
def finishAction (s : Scan) (opcode : Opcode) (argument : Option Argument) (position : Nat) :
    Reading Block :=
  let mark := s.skipChar '*'
  (.ok (.action opcode argument mark.1 position), (skipChar ';' mark.2).2)

/-- Reads one block. -/
def readBlock (s : Scan) : Reading Block :=
  if s.peek? = some ':' then
    s.readChar.bind fun _ opened => opened.readName.map fun name => .tag name s.position
  else (s.readMnemonic Opcode.mnemonics).bind fun opcode next =>
    if opcode.takesOperand then
      next.readArgument.bind fun argument last => last.finishAction opcode (some argument) s.position
    else next.finishAction opcode none s.position

theorem reaches_bind {s : Scan} {reading : Reading α} {next : α → Scan → Reading β}
    (h : s.Reaches reading.2) (hnext : ∀ value (t : Scan), t.Reaches (next value t).2) :
    s.Reaches (reading.bind next).2 := by
  obtain ⟨result, t⟩ := reading
  cases result with
  | error e => exact h
  | ok value => exact h.trans (hnext value t)

theorem reaches_readChar (s : Scan) : s.Reaches s.readChar.2 := by
  unfold readChar
  split
  · rename_i hread
    exact .of_read hread
  · exact .refl s

theorem reaches_skipChar (c : Char) (s : Scan) : s.Reaches (s.skipChar c).2 := by
  unfold skipChar
  split
  · exact s.reaches_readChar
  · exact .refl s

theorem reaches_readName (s : Scan) : s.Reaches s.readName.2 := by
  have hname := s.reaches_readWhile (· != ':')
  unfold readName
  dsimp only
  split
  · rename_i hread
    exact hname.trans (.of_read hread)
  · exact hname

theorem reaches_readNumber (s : Scan) : s.Reaches s.readNumber.2 := by
  have hdigits := (s.reaches_skipChar '-').trans (Tape.reaches_readWhile Char.isDigit _)
  unfold readNumber
  dsimp only
  split <;> exact hdigits

theorem reaches_readQuoted (s : Scan) : s.Reaches s.readQuoted.2 :=
  reaches_bind s.reaches_readChar fun _ opened =>
    reaches_bind opened.reaches_readChar fun _ quoted => quoted.reaches_readChar

theorem reaches_readRegister (s : Scan) : s.Reaches s.readRegister.2 := by
  apply reaches_bind s.reaches_readChar
  intro symbol next
  split <;> exact .refl next

theorem reaches_readArgument (s : Scan) : s.Reaches s.readArgument.2 := by
  unfold readArgument
  split
  · exact s.reaches_readNumber
  split
  · exact s.reaches_readQuoted
  split
  · exact reaches_bind s.reaches_readChar fun _ opened => opened.reaches_readName
  · exact s.reaches_readRegister

theorem reaches_finishAction (s : Scan) (opcode : Opcode) (argument : Option Argument)
    (position : Nat) : s.Reaches (s.finishAction opcode argument position).2 :=
  (s.reaches_skipChar '*').trans (reaches_skipChar ';' _)

/-- Words that end within what was read. -/
def Ends (read : List Char) (best : Option (MnemonicTable.Match α)) : Prop :=
  ∀ m ∈ best, 0 < m.length ∧ m.length ≤ read.length

theorem ends_record {table : MnemonicTable α} {read : List Char}
    {best : Option (MnemonicTable.Match α)} (h : Ends read best) (c : Char) :
    Ends (read ++ [c]) (table.record (read ++ [c]) best) := by
  intro m hm
  rcases MnemonicTable.mem_record hm with ⟨-, hlength⟩ | hbest
  · simp [hlength]
  · have hm := h m hbest
    rw [List.length_append]
    omega

/-- Reading ahead moves by as many characters as it takes, and what it finds is among them. -/
theorem readAhead_moves (table : MnemonicTable α) (taken : List Char)
    (best : Option (MnemonicTable.Match α)) (s : Scan) (hbest : Ends taken best) :
    let ahead := readAhead table taken best s
    s.Reaches ahead.scan ∧ ahead.scan.position + taken.length = s.position + ahead.taken.length ∧
      Ends ahead.taken ahead.best := by
  fun_induction readAhead table taken best s with
  | case1 taken best s _ _ => exact ⟨.refl s, rfl, hbest⟩
  | case2 taken best s c next h hc => exact ⟨.refl s, rfl, hbest⟩
  | case3 taken best s c next h hc longer hgoes hlt ih =>
    obtain ⟨hreaches, hposition, hends⟩ := ih (ends_record hbest c)
    have hread := (Tape.position_of_read h).2
    have hlonger : longer.length = taken.length + 1 := by simp [longer]
    refine ⟨(Tape.Reaches.of_read h).trans hreaches, ?_, hends⟩
    omega
  | case4 taken best s c next h hc longer hstops =>
    have hread := (Tape.position_of_read h).2
    have hlonger : longer.length = taken.length + 1 := by simp [longer]
    refine ⟨.of_read h, ?_, ends_record hbest c⟩
    dsimp only
    omega

theorem readAhead_moves_nil (table : MnemonicTable α) (s : Scan) :
    let ahead := readAhead table [] none s
    s.Reaches ahead.scan ∧ ahead.scan.position = s.position + ahead.taken.length ∧
      Ends ahead.taken ahead.best :=
  readAhead_moves table [] none s (by simp [Ends])

theorem reaches_unknown (ahead : Lookahead α) : ahead.scan.Reaches ahead.unknown.2 := by
  unfold Lookahead.unknown
  split
  · exact .refl _
  · exact Tape.reaches_readWhile ..

/-- Going back ends behind the word found, however far was read ahead. -/
theorem position_readMnemonic (table : MnemonicTable α) (s : Scan) :
    s.Reaches (s.readMnemonic table).2 ∧
      ∀ value, (s.readMnemonic table).1 = .ok value →
        s.position < (s.readMnemonic table).2.position := by
  obtain ⟨hreaches, hposition, hends⟩ := readAhead_moves_nil table s
  unfold readMnemonic
  dsimp only
  split
  · rename_i found hfound
    have hlength := hends found hfound
    have hlt : s.position < ((readAhead table [] none s).scan.back
        ((readAhead table [] none s).taken.length - found.length)).position := by
      unfold Tape.back
      dsimp only
      omega
    exact ⟨⟨hreaches.1, Nat.le_of_lt hlt⟩, fun _ _ => hlt⟩
  · exact ⟨hreaches.trans (reaches_unknown _), fun _ h => by cases h⟩

theorem position_readChar {s : Scan} {c : Char} (h : s.peek? = some c) :
    s.position < s.readChar.2.position := by
  obtain ⟨next, hread⟩ := Tape.read_of_peek? h
  have hposition := (Tape.position_of_read hread).2
  unfold readChar
  rw [hread]
  dsimp only
  omega

/-- An action is read from behind its mnemonic on. -/
theorem readMnemonic_reaches_readBlock {s : Scan} (hcolon : s.peek? ≠ some ':') :
    (s.readMnemonic Opcode.mnemonics).2.Reaches s.readBlock.2 := by
  unfold readBlock
  rw [if_neg hcolon]
  apply reaches_bind (.refl _)
  intro opcode next
  split
  · exact reaches_bind next.reaches_readArgument fun _ last => last.reaches_finishAction ..
  · exact next.reaches_finishAction ..

theorem readChar_reaches_readBlock {s : Scan} (hcolon : s.peek? = some ':') :
    s.readChar.2.Reaches s.readBlock.2 := by
  unfold readBlock
  rw [if_pos hcolon]
  exact reaches_bind (.refl _) fun _ opened => opened.reaches_readName

theorem reaches_readBlock (s : Scan) : s.Reaches s.readBlock.2 := by
  by_cases hcolon : s.peek? = some ':'
  · exact s.reaches_readChar.trans (readChar_reaches_readBlock hcolon)
  · exact (s.position_readMnemonic _).1.trans (readMnemonic_reaches_readBlock hcolon)

theorem bind_eq_ok {reading : Reading α} {next : α → Scan → Reading β} {value : β} {t : Scan}
    (h : reading.bind next = (.ok value, t)) :
    ∃ first s, reading = (.ok first, s) ∧ next first s = (.ok value, t) := by
  obtain ⟨result, s⟩ := reading
  cases result with
  | error e => cases h
  | ok first => exact ⟨first, s, rfl, h⟩

/-- A block that was read took at least one character. -/
theorem position_readBlock {s t : Scan} {block : Block} (h : s.readBlock = (.ok block, t)) :
    s.position < t.position := by
  have ht : s.readBlock.2 = t := congrArg Prod.snd h
  subst ht
  by_cases hcolon : s.peek? = some ':'
  · exact Nat.lt_of_lt_of_le (position_readChar hcolon) (readChar_reaches_readBlock hcolon).2
  · have hword := h
    unfold readBlock at hword
    rw [if_neg hcolon] at hword
    obtain ⟨opcode, next, hmnemonic, -⟩ := bind_eq_ok hword
    have hlt := (s.position_readMnemonic Opcode.mnemonics).2 opcode (by rw [hmnemonic])
    exact Nat.lt_of_lt_of_le hlt (readMnemonic_reaches_readBlock hcolon).2

theorem left_of_readBlock {s t : Scan} {block : Block} (h : s.readBlock = (.ok block, t)) :
    t.size - t.position < s.size - s.position := by
  have hitems := s.reaches_readBlock.1
  rw [h] at hitems
  exact Tape.left_lt hitems (position_readBlock h)

/-- Reads blocks to the end of the source, or to the first error. -/
def readAll (s : Scan) : Except BlockError (List Block) :=
  if s.atEnd then .ok []
  else match h : s.readBlock with
    | (.error e, _) => .error e
    | (.ok block, next) =>
      have := left_of_readBlock h
      next.readAll.map (block :: ·)
termination_by s.size - s.position
decreasing_by assumption

end Scan

/-- The blocks of a source text. -/
def Block.ofSource (source : String) : Except BlockError (List Block) :=
  (Scan.ofSource source).readAll

end AccumulatorMachine
