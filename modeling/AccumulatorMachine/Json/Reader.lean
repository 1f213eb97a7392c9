import AccumulatorMachine.Json.Token
import AccumulatorMachine.Json.Value

/-!
Reading a JSON text into a value.
-/
namespace AccumulatorMachine.Json

mutual

/-- Reads a value, and returns it with the tokens behind it. Each call takes one from `fuel`. -/
def value? : (fuel : Nat) → List Token → Option (Json × List Token)
  | 0, _ => none
  | fuel + 1, tokens => match tokens with
    | .null :: rest => some (.null, rest)
    | .bool b :: rest => some (.bool b, rest)
    | .number literal :: rest => some (.number literal, rest)
    | .string text :: rest => some (.string text, rest)
    | .beginArray :: .endArray :: rest => some (.array [], rest)
    | .beginArray :: rest => (items? fuel rest).map fun (items, left) => (.array items, left)
    | .beginObject :: .endObject :: rest => some (.object [], rest)
    | .beginObject :: rest => (fields? fuel rest).map fun (fields, left) => (.object fields, left)
    | _ => none

/-- Reads one or more items and the bracket that ends them. -/
def items? : (fuel : Nat) → List Token → Option (List Json × List Token)
  | 0, _ => none
  | fuel + 1, tokens => match value? fuel tokens with
    | some (item, .comma :: rest) =>
      (items? fuel rest).map fun (items, left) => (item :: items, left)
    | some (item, .endArray :: rest) => some ([item], rest)
    | _ => none

/-- Reads one or more fields and the brace that ends them. -/
def fields? : (fuel : Nat) → List Token → Option (List (Option String × Json) × List Token)
  | 0, _ => none
  | fuel + 1, tokens => match tokens with
    | .string key :: .colon :: rest => match value? fuel rest with
      | some (value, .comma :: rest) =>
        (fields? fuel rest).map fun (fields, left) => ((key, value) :: fields, left)
      | some (value, .endObject :: rest) => some ([(key, value)], rest)
      | _ => none
    | _ => none

end

/-- The value of a JSON text. A token takes at most two calls to read, so the fuel is enough. -/
def ofText? (text : String) : Option Json :=
  match tokens? text.toList with
  | none => none
  | some tokens => match value? (2 * tokens.length) tokens with
    | some (value, []) => some value
    | _ => none

end AccumulatorMachine.Json
