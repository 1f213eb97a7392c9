import AccumulatorMachine.Program

/-!
Listings: the instructions of a program line by line, and its tags.
-/
namespace AccumulatorMachine

/-- A line of a listing. The target is the index that a tag operand stands for. -/
structure ListingEntry where
  index : Nat
  source : String
  opcode : String
  operand : Option String
  target : Option Nat
  breakpoint : Bool
deriving DecidableEq

structure Listing where
  entries : List ListingEntry
  tags : TagTable
deriving DecidableEq

def Operand.target? : Operand → Option Nat
  | .tag _ target => some target
  | _ => none

/-- Fills a text up with blanks on its left. -/
def padLeft (width : Nat) (text : String) : String :=
  String.ofList (List.replicate (width - text.length) ' ') ++ text

/-- Fills a text up with blanks on its right. -/
def padRight (width : Nat) (text : String) : String :=
  text ++ String.ofList (List.replicate (width - text.length) ' ')

namespace ListingEntry

def ofInstruction (index : Nat) (i : Instruction) : ListingEntry where
  index := index
  source := i.text
  opcode := i.opcode.text
  operand := i.operand.map Operand.text
  target := i.operand.bind Operand.target?
  breakpoint := i.breakpoint

/-- The entry as it is printed, without the end of the line. -/
def line (entry : ListingEntry) : String :=
  let number := padLeft 4 (Decimal.ofNat entry.index) ++ "  "
  match entry.target with
  | some target => number ++ padRight 16 entry.source ++ " -> " ++ Decimal.ofNat target
  | none => number ++ entry.source

end ListingEntry

namespace Listing

def ofProgram (p : Program) : Listing :=
  ⟨p.instructions.toList.mapIdx ListingEntry.ofInstruction, p.tags⟩

/-- The entries, a line each. -/
def text (listing : Listing) : String :=
  String.join (listing.entries.map fun entry => entry.line ++ "\n")

/-- The source texts of the entries, with line feeds between them. -/
def source (listing : Listing) : String :=
  String.intercalate "\n" (listing.entries.map ListingEntry.source)

/-- The entries with a mark on the one that has the index `pc`, or on a last line if `pc` is behind
them all. -/
def marked (listing : Listing) (pc : Nat) : String :=
  String.join (listing.entries.map fun entry =>
    (if entry.index = pc then "=> " else "   ") ++ entry.line ++ "\n") ++
    if listing.entries.length ≤ pc then "=> <end>\n" else ""

end Listing

end AccumulatorMachine
