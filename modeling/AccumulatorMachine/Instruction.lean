import AccumulatorMachine.Opcode
import AccumulatorMachine.Text.Decimal

/-!
Instructions and their canonical text.
-/
namespace AccumulatorMachine

inductive Operand where
  | literal (value : Int64)
  | register (r : Register)
  /-- A tag by its name, with the index of the instruction it stands for. -/
  | tag (name : String) (target : Nat)
deriving DecidableEq

/-- A tag name as it is written, between colons. -/
def tagText (name : String) : String :=
  ":" ++ name ++ ":"

def Operand.text : Operand → String
  | .literal value => Decimal.ofWord value
  | .register r => r.symbol.toString
  | .tag name _ => tagText name

/-- An instruction. Any opcode can carry any operand and a tag name; only what the assembler
produces is bound to fit together. -/
structure Instruction where
  opcode : Opcode
  operand : Option Operand := none
  breakpoint : Bool := false
  tagName : Option String := none
deriving DecidableEq

namespace Instruction

/-- The instruction that marks the place of a tag. -/
def tag (name : String) : Instruction :=
  { opcode := .tag, tagName := some name }

def isTag (i : Instruction) : Bool :=
  i.opcode.isTag

/-- The text of an instruction. A tag shows its name alone. -/
def text (i : Instruction) : String :=
  if i.isTag then tagText (i.tagName.getD "")
  else i.opcode.text ++ (i.operand.map Operand.text).getD "" ++ if i.breakpoint then "*" else ""

end Instruction

end AccumulatorMachine
