import AccumulatorMachine.Block.Scan
import AccumulatorMachine.Log
import AccumulatorMachine.Program
import AccumulatorMachine.Source.Location

/-!
Assembly: from a source text to a program. The first pass reads the blocks and gathers the tags, and
stops at the first error or the first tag that is defined again. The second pass replaces each block
by an instruction, when all tags are known.
-/
namespace AccumulatorMachine

inductive AssemblyError where
  | malformed (error : BlockError)
  /-- Two tag definitions, given by their indices, have the same name. -/
  | duplicateTag (name : String) (first second : Nat)
  /-- An action, given by its position, refers to a tag without definition. -/
  | undefinedTag (name : String) (position : Nat)
deriving DecidableEq

namespace AssemblyError

def message : AssemblyError → String
  | .malformed error => error.message
  | .duplicateTag name first second =>
    s!"Tag ':{name}:' is defined twice (instructions {first} and {second})"
  | .undefinedTag name position => s!"Reference to undefined tag ':{name}:' at position {position}"

/-- The position in the stripped source that an error is about. -/
def position? : AssemblyError → Option Nat
  | .malformed error => some error.position
  | .duplicateTag .. => none
  | .undefinedTag _ position => some position

/-- The place in the source as it was written that an error is about. -/
def location? (error : AssemblyError) (source : String) : Option Source.Location :=
  error.position?.map (Source.LineMap.ofSource source).locate

end AssemblyError

namespace Assembly

/-- What assembly tells about itself. -/
inductive Note where
  /-- The text read for a mnemonic, what it means, and where it starts. -/
  | mnemonic (candidate : String) (opcode : Opcode) (position : Nat)
  | assembled (instructions tags : Nat)
deriving DecidableEq

def Note.event : Note → Log.Event
  | .mnemonic candidate opcode position =>
    ⟨.trace, "mnemonic", [("candidate", candidate), ("opcode", opcode.text),
      ("position", Decimal.ofNat position)]⟩
  | .assembled instructions tags =>
    ⟨.debug, "assembled program", [("instructions", Decimal.ofNat instructions),
      ("tags", Decimal.ofNat tags)]⟩

/-- The note on the mnemonic of the block at hand, if it is an action with a known one. -/
def noteMnemonic? (s : Scan) : Option Note :=
  if s.peek? = some ':' then none
  else
    let ahead := s.readAhead Opcode.mnemonics [] none
    ahead.best.map fun found => .mnemonic (String.ofList ahead.taken) found.value s.position

/-- What the first pass has gathered. -/
structure Draft where
  blocks : Array Block := #[]
  tags : TagTable := ∅
  notes : Array Note := #[]

/-- A tag that was defined before cannot be taken in. -/
def Draft.duplicate? (draft : Draft) : Block → Option AssemblyError
  | .tag name _ => draft.tags[name]?.map fun first => .duplicateTag name first draft.blocks.size
  | .action .. => none

/-- Takes in a block, under the next index. -/
def Draft.add (draft : Draft) (block : Block) : Draft :=
  let tags := match block with
    | .tag name _ => draft.tags.insert name draft.blocks.size
    | .action .. => draft.tags
  { draft with blocks := draft.blocks.push block, tags }

/-- Adds the note on the block that comes next. -/
def Draft.note (draft : Draft) (s : Scan) : Draft :=
  { draft with notes := draft.notes ++ (noteMnemonic? s).toList }

/-- The first pass, from a scan on. An error ends it; the draft up to there is kept. -/
def gather (s : Scan) (draft : Draft) : Draft × Option AssemblyError :=
  if s.atEnd then (draft, none)
  else
    let noted := draft.note s
    match h : s.readBlock with
    | (.error e, _) => (noted, some (.malformed e))
    | (.ok block, next) => match noted.duplicate? block with
      | some e => (noted, some e)
      | none =>
        have := Scan.left_of_readBlock h
        gather next (noted.add block)
termination_by s.size - s.position
decreasing_by assumption

/-- The operand for an argument of the action at `position`. -/
def linkArgument (tags : TagTable) (position : Nat) : Argument → Except AssemblyError Operand
  | .literal value => .ok (.literal value)
  | .register r => .ok (.register r)
  | .tag name => match tags[name]? with
    | some target => .ok (.tag name target)
    | none => .error (.undefinedTag name position)

/-- The instruction for a block. -/
def linkBlock (tags : TagTable) : Block → Except AssemblyError Instruction
  | .tag name _ => .ok (.tag name)
  | .action opcode none breakpoint _ => .ok { opcode, breakpoint }
  | .action opcode (some argument) breakpoint position =>
    (linkArgument tags position argument).map fun operand =>
      { opcode, operand := some operand, breakpoint }

/-- The instructions for all blocks, or the first error among them. -/
def link (tags : TagTable) : List Block → Except AssemblyError (List Instruction)
  | [] => .ok []
  | block :: rest => match linkBlock tags block with
    | .error e => .error e
    | .ok instruction => (link tags rest).map (instruction :: ·)

end Assembly

/-- The outcome of assembly, with the notes made on the way. -/
structure Assembly where
  notes : Array Assembly.Note
  outcome : Except AssemblyError Program

namespace Assembly

def ofSource (source : String) : Assembly :=
  match gather (Scan.ofSource source) {} with
  | (draft, some e) => ⟨draft.notes, .error e⟩
  | (draft, none) => match link draft.tags draft.blocks.toList with
    | .error e => ⟨draft.notes, .error e⟩
    | .ok instructions =>
      ⟨draft.notes.push (.assembled instructions.length draft.tags.size),
        .ok ⟨instructions.toArray, draft.tags⟩⟩

def log (assembly : Assembly) : List Log.Event :=
  assembly.notes.toList.map Note.event

end Assembly

/-- Assembles a source text. -/
def assemble (source : String) : Except AssemblyError Program :=
  (Assembly.ofSource source).outcome

end AccumulatorMachine
