/-!
UTF-8 read byte by byte. Reading stops at the first byte that no well-formed text can hold there,
and says where the ill-formed sequence starts and how many of its bytes were still in order.
-/
namespace AccumulatorMachine.Utf8

/-- An ill-formed sequence: its offset, and the number of bytes that belong to it. There is no
such number when the bytes end inside a character. -/
structure Fault where
  offset : Nat
  length : Option Nat
deriving DecidableEq, Repr

def Fault.message (fault : Fault) : String :=
  match fault.length with
  | some n => s!"invalid utf-8 sequence of {n} bytes from index {fault.offset}"
  | none => s!"incomplete utf-8 byte sequence from index {fault.offset}"

/-- A character of which some bytes are read: `code` holds their payload, `owed` more bytes are due
and the next of them lies between `low` and `high`. -/
structure Pending where
  read : Nat
  owed : Nat
  low : Nat
  high : Nat
  code : Nat
deriving DecidableEq, Repr

/-- What a first byte starts: a whole character, a longer one, or nothing well formed. -/
inductive Start where
  | char (code : Nat)
  | longer (pending : Pending)
  | illFormed
deriving DecidableEq, Repr

/-- The first bytes of well-formed sequences. The bounds on the second byte keep out overlong
forms, surrogates and codes above the last scalar value. -/
def start (byte : Nat) : Start :=
  if byte < 0x80 then .char byte
  else if byte < 0xC2 then .illFormed
  else if byte < 0xE0 then .longer ⟨1, 1, 0x80, 0xBF, byte - 0xC0⟩
  else if byte = 0xE0 then .longer ⟨1, 2, 0xA0, 0xBF, 0⟩
  else if byte = 0xED then .longer ⟨1, 2, 0x80, 0x9F, 0xD⟩
  else if byte < 0xF0 then .longer ⟨1, 2, 0x80, 0xBF, byte - 0xE0⟩
  else if byte = 0xF0 then .longer ⟨1, 3, 0x90, 0xBF, 0⟩
  else if byte < 0xF4 then .longer ⟨1, 3, 0x80, 0xBF, byte - 0xF0⟩
  else if byte = 0xF4 then .longer ⟨1, 3, 0x80, 0x8F, 4⟩
  else .illFormed

/-- Reads the bytes from `offset` on, `pending` being the character that is not yet complete and
`done` the characters before it, last first. -/
def decodeFrom (offset : Nat) (pending : Option Pending) (done : List Char) :
    List UInt8 → Except Fault (List Char)
  | [] => match pending with
    | none => .ok done.reverse
    | some p => .error ⟨offset - p.read, none⟩
  | byte :: rest => match pending with
    | none => match start byte.toNat with
      | .char code => decodeFrom (offset + 1) none (Char.ofNat code :: done) rest
      | .longer p => decodeFrom (offset + 1) (some p) done rest
      | .illFormed => .error ⟨offset, some 1⟩
    | some p =>
      if p.low ≤ byte.toNat ∧ byte.toNat ≤ p.high then
        let code := p.code * 64 + (byte.toNat - 0x80)
        if p.owed = 1 then decodeFrom (offset + 1) none (Char.ofNat code :: done) rest
        else decodeFrom (offset + 1) (some ⟨p.read + 1, p.owed - 1, 0x80, 0xBF, code⟩) done rest
      else .error ⟨offset - p.read, some p.read⟩

def decode (bytes : List UInt8) : Except Fault String :=
  (decodeFrom 0 none [] bytes).map String.ofList

/-- Splits bytes into lines, each with the line feed that ends it; `current` holds the bytes of
the line being read, last first. -/
def linesFrom (current : List UInt8) : List UInt8 → List (List UInt8)
  | [] => if current.isEmpty then [] else [current.reverse]
  | byte :: rest =>
    if byte = 10 then (byte :: current).reverse :: linesFrom [] rest
    else linesFrom (byte :: current) rest

/-- The lines of a byte sequence, line feeds kept. Bytes after the last line feed are a line too. -/
def lines (bytes : List UInt8) : List (List UInt8) :=
  linesFrom [] bytes

/-- A line without the line feed that ends it, nor a carriage return right before that. -/
def dropLineEnd (line : List UInt8) : List UInt8 :=
  match line.reverse with
  | 10 :: 13 :: rest => rest.reverse
  | 10 :: rest => rest.reverse
  | _ => line

end AccumulatorMachine.Utf8
