import AccumulatorMachine.Json.Reader
import AccumulatorMachine.Listing.Basic

/-!
Listings as JSON. A record is written as an object with its fields in a fixed order. It can be read
from an object with the fields in any order, others among them, or from an array of the fields' values
in that order.
-/
namespace AccumulatorMachine

namespace Json

def ofNat (n : Nat) : Json :=
  .number (Decimal.digits n)

def ofString (text : String) : Json :=
  .string (some text)

/-- An absent value is written as `null`. -/
def ofOption {α : Type} (encode : α → Json) : Option α → Json
  | some a => encode a
  | none => .null

def record (fields : List (String × Json)) : Json :=
  .object (fields.map fun field => (some field.1, field.2))

/-- An unsigned word: digits alone. -/
def nat? : Json → Option Nat
  | .number literal => (Decimal.nat? literal).filter (· < Decimal.wordLimit)
  | _ => none

def string? : Json → Option String
  | .string value => value
  | _ => none

def bool? : Json → Option Bool
  | .bool value => some value
  | _ => none

/-- `null` is an absent value. -/
def option? {α : Type} (decode : Json → Option α) : Json → Option (Option α)
  | .null => some none
  | value => (decode value).map some

/-- The values of the named fields of an object, `none` for a field that is missing. A named field
must not occur twice, and every name must be a text. -/
def fieldValues? (fields : List (Option String × Json)) (names : List String) :
    Option (List (Option Json)) :=
  if fields.any fun field => field.1.isNone then none
  else names.mapM fun name => match fields.filter fun field => field.1 == some name with
    | [] => some none
    | [field] => some (some field.2)
    | _ => none

end Json

namespace ListingEntry

def toJson (entry : ListingEntry) : Json :=
  .record [("index", .ofNat entry.index), ("source", .ofString entry.source),
    ("opcode", .ofString entry.opcode), ("operand", .ofOption .ofString entry.operand),
    ("target", .ofOption .ofNat entry.target), ("breakpoint", .bool entry.breakpoint)]

/-- The entry with the given values of its fields. -/
def ofValues? (index source opcode operand target breakpoint : Json) : Option ListingEntry :=
  match index.nat?, source.string?, opcode.string?, operand.option? Json.string?,
    target.option? Json.nat?, breakpoint.bool? with
  | some index, some source, some opcode, some operand, some target, some breakpoint =>
    some ⟨index, source, opcode, operand, target, breakpoint⟩
  | _, _, _, _, _, _ => none

/-- Reads an entry. The operand and the target can be missing from an object. -/
def ofJson? : Json → Option ListingEntry
  | .array [index, source, opcode, operand, target, breakpoint] =>
    ofValues? index source opcode operand target breakpoint
  | .object fields =>
    match Json.fieldValues? fields
      ["index", "source", "opcode", "operand", "target", "breakpoint"] with
    | some [some index, some source, some opcode, operand, target, some breakpoint] =>
      ofValues? index source opcode (operand.getD .null) (target.getD .null) breakpoint
    | _ => none
  | _ => none

end ListingEntry

namespace Listing

def toJson (listing : Listing) : Json :=
  .record [("instructions", .array (listing.entries.map ListingEntry.toJson)),
    ("tags", .record (listing.tags.toList.map fun tag => (tag.1, .ofNat tag.2)))]

def jsonText (listing : Listing) : String :=
  String.ofList (listing.toJson.pretty 0)

/-- Reads a table of tags. Of fields with the same name the last one counts. -/
def tagsOfFields? (tags : TagTable) : List (Option String × Json) → Option TagTable
  | [] => some tags
  | (some name, value) :: rest => match value.nat? with
    | some index => tagsOfFields? (tags.insert name index) rest
    | none => none
  | (none, _) :: _ => none

def ofValues? : (entries tags : Json) → Option Listing
  | .array entries, .object tags =>
    match entries.mapM ListingEntry.ofJson?, tagsOfFields? ∅ tags with
    | some entries, some tags => some ⟨entries, tags⟩
    | _, _ => none
  | _, _ => none

def ofJson? : Json → Option Listing
  | .array [entries, tags] => ofValues? entries tags
  | .object fields => match Json.fieldValues? fields ["instructions", "tags"] with
    | some [some entries, some tags] => ofValues? entries tags
    | _ => none
  | _ => none

/-- Reads a listing from a JSON text. -/
def ofJsonText? (text : String) : Option Listing :=
  (Json.ofText? text).bind ofJson?

end Listing

end AccumulatorMachine
