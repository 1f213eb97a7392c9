import AccumulatorMachine.Mnemonic

/-!
Operation codes, and the registers an operand can name.
-/
namespace AccumulatorMachine

inductive Opcode where
  | add
  | jumpIfPositive
  | jumpIfZero
  | jumpIfNegative
  | jump
  | assign
  | putChar
  | putNumber
  | push
  | pop
  | flush
  | nop
  /-- A tag marks a place in a program; executing it does nothing. -/
  | tag
deriving DecidableEq, Repr

namespace Opcode

/-- The opcodes that are written as a word, with that word. -/
def mnemonics : MnemonicTable Opcode :=
  ⟨[("acc", .add), ("jgz", .jumpIfPositive), ("jez", .jumpIfZero), ("jlz", .jumpIfNegative),
    ("jmp", .jump), ("giv", .assign), ("oc", .putChar), ("on", .putNumber), ("push", .push),
    ("pop", .pop), ("flush", .flush), ("nop", .nop)]⟩

/-- The word for an opcode; a tag has none. -/
def mnemonic? (op : Opcode) : Option String :=
  (mnemonics.entries.find? fun entry => entry.2 == op).map Prod.fst

def text (op : Opcode) : String :=
  op.mnemonic?.getD "tag"

def takesOperand : Opcode → Bool
  | .add | .jumpIfPositive | .jumpIfZero | .jumpIfNegative | .jump | .assign | .push => true
  | .putChar | .putNumber | .pop | .flush | .nop | .tag => false

def isTag : Opcode → Bool
  | .tag => true
  | _ => false

end Opcode

/-- What an operand can read. -/
inductive Register where
  | accumulator
  /-- The accumulator with its sign turned. -/
  | negated
  /-- The top of the stack, which reading removes. -/
  | stackTop
  /-- The next input code. -/
  | input
deriving DecidableEq, Repr

namespace Register

def symbol : Register → Char
  | .accumulator => 'A'
  | .negated => 'Z'
  | .stackTop => 'S'
  | .input => 'I'

def ofSymbol? : Char → Option Register
  | 'A' => some .accumulator
  | 'Z' => some .negated
  | 'S' => some .stackTop
  | 'I' => some .input
  | _ => none

theorem ofSymbol?_symbol (r : Register) : ofSymbol? r.symbol = some r := by
  cases r <;> rfl

end Register

end AccumulatorMachine
