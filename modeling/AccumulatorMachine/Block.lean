import AccumulatorMachine.Opcode
import AccumulatorMachine.Text.Decimal
import AccumulatorMachine.Instruction
import AccumulatorMachine.Tape

/-!
Blocks, the units of a source text, and what can be wrong with one. All positions count characters
of the stripped source.
-/
namespace AccumulatorMachine

/-- The argument of an action as it is written: a tag is known by its name alone. -/
inductive Argument where
  | literal (value : Int64)
  | register (r : Register)
  | tag (name : String)
deriving DecidableEq

def Argument.text : Argument → String
  | .literal value => Decimal.ofWord value
  | .register r => r.symbol.toString
  | .tag name => tagText name

/-- A tag definition or an action, with the position of its first character. -/
inductive Block where
  | tag (name : String) (position : Nat)
  | action (opcode : Opcode) (argument : Option Argument) (breakpoint : Bool) (position : Nat)
deriving DecidableEq

def Block.position : Block → Nat
  | .tag _ position => position
  | .action _ _ _ position => position

inductive BlockError where
  | unknownMnemonic (text : String) (position : Nat)
  | unknownRegister (symbol : Char) (position : Nat)
  /-- A tag name that starts at the position has no closing colon. -/
  | unclosedTag (position : Nat)
  /-- A number has no digits or does not fit a word. -/
  | badNumber (text : String) (position : Nat)
  /-- The source ends inside an argument. -/
  | endOfSource (place : OutOfRange)
deriving DecidableEq

namespace BlockError

def message : BlockError → String
  | .unknownMnemonic text position => s!"Invalid mnemonic '{text}' at position {position}"
  | .unknownRegister symbol position => s!"Invalid register '{symbol}' at position {position}"
  | .unclosedTag position => s!"Could not find closing ':' for text starting at position {position}"
  | .badNumber text position => s!"Invalid number '{text}' at position {position}"
  | .endOfSource place => "Unexpected end of source: " ++ place.message

def position : BlockError → Nat
  | .unknownMnemonic _ position => position
  | .unknownRegister _ position => position
  | .unclosedTag position => position
  | .badNumber _ position => position
  | .endOfSource place => place.index

end BlockError

end AccumulatorMachine
