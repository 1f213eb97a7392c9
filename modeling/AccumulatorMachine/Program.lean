import AccumulatorMachine.Instruction
import AccumulatorMachine.Tape
import Std.Data.ExtTreeMap

/-!
Programs: the instructions in order, and the table of the tags with their indices. Tables are equal
when they map the same names to the same indices, and list their names in code point order.
-/
namespace AccumulatorMachine

abbrev TagTable := Std.ExtTreeMap String Nat

structure Program where
  instructions : Array Instruction
  tags : TagTable
deriving DecidableEq

namespace TagTable

/-- Enters the tag names of instructions that are numbered from `index` on. Of instructions with the
same name the last one counts. -/
def addAll (tags : TagTable) (index : Nat) : List Instruction → TagTable
  | [] => tags
  | i :: rest => match i.tagName with
    | some name => addAll (tags.insert name index) (index + 1) rest
    | none => addAll tags (index + 1) rest

end TagTable

namespace Program

/-- The program with the given instructions and a table made from their tag names. -/
def ofInstructions (instructions : Array Instruction) : Program :=
  ⟨instructions, TagTable.addAll ∅ 0 instructions.toList⟩

def size (p : Program) : Nat :=
  p.instructions.size

def isEmpty (p : Program) : Bool :=
  p.instructions.isEmpty

def get? (p : Program) (index : Nat) : Option Instruction :=
  p.instructions[index]?

/-- The instructions, to be read from the first one on. -/
def tape (p : Program) : Tape Instruction :=
  .ofArray p.instructions

/-- The index of a tag. -/
def tag? (p : Program) (name : String) : Option Nat :=
  p.tags[name]?

end Program

end AccumulatorMachine
