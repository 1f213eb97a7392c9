/-!
Tables of words. What can follow the start of a word is a list of characters, in order and each once.
-/
namespace AccumulatorMachine

/-- Words with their meanings. -/
structure MnemonicTable (α : Type) where
  entries : List (String × α)

/-- Puts a character into an ascending list, unless it is there. -/
def insertOnce (c : Char) : List Char → List Char
  | [] => [c]
  | d :: rest =>
    if c < d then c :: d :: rest else if c = d then d :: rest else d :: insertOnce c rest

namespace MnemonicTable

variable {α : Type}

/-- A word found at the start of a text: its meaning and its length. -/
structure Match (α : Type) where
  value : α
  length : Nat
deriving DecidableEq, Repr

def find? (table : MnemonicTable α) (word : List Char) : Option α :=
  (table.entries.find? fun entry => entry.1.toList == word).map Prod.snd

/-- The characters that can follow `start` in a longer word, ascending and each once. -/
def continuations (table : MnemonicTable α) (start : List Char) : List Char :=
  (table.entries.filterMap fun entry =>
    if start.isPrefixOf entry.1.toList then (entry.1.toList.drop start.length).head?
    else none).foldr insertOnce []

/-- The longest word so far, when reading has come to the end of `read`. -/
def record (table : MnemonicTable α) (read : List Char) (best : Option (Match α)) :
    Option (Match α) :=
  ((table.find? read).map fun value => ⟨value, read.length⟩).or best

theorem mem_record {table : MnemonicTable α} {read : List Char} {best : Option (Match α)}
    {m : Match α} (h : m ∈ table.record read best) :
    table.find? read = some m.value ∧ m.length = read.length ∨ m ∈ best := by
  unfold record at h
  cases hfind : table.find? read with
  | none =>
    rw [hfind] at h
    exact Or.inr h
  | some value =>
    rw [hfind] at h
    obtain rfl := Option.some.inj h
    exact Or.inl ⟨rfl, rfl⟩

end MnemonicTable

end AccumulatorMachine
