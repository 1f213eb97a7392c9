import AccumulatorMachine.Program

/-!
The machine's own memory: the accumulator, the stack and the index of the next instruction.
-/
namespace AccumulatorMachine

structure State where
  accumulator : Int64 := 0
  /-- The newest value comes first. -/
  stack : List Int64 := []
  pc : Nat := 0
deriving DecidableEq

namespace State

/-- The stack from its bottom up, in brackets. -/
def stackText (s : State) : String :=
  "[" ++ String.intercalate ", " (s.stack.reverse.map Decimal.ofWord) ++ "]"

def text (s : State) : String :=
  s!"A: {Decimal.ofWord s.accumulator} S: {s.stackText} Index: {s.pc}"

def assign (s : State) (value : Int64) : State :=
  { s with accumulator := value }

/-- Adds to the accumulator, modulo 2^64. -/
def add (s : State) (amount : Int64) : State :=
  { s with accumulator := s.accumulator + amount }

def push (s : State) (value : Int64) : State :=
  { s with stack := value :: s.stack }

/-- Takes the newest value off the stack; an empty stack gives zero. -/
def pop (s : State) : Int64 × State :=
  match s.stack with
  | [] => (0, s)
  | value :: rest => (value, { s with stack := rest })

def clear (s : State) : State :=
  { s with stack := [] }

/-- No instruction of the program is left. -/
def atEnd (p : Program) (s : State) : Bool :=
  decide (p.size ≤ s.pc)

/-- Takes the next instruction and moves behind it. -/
def fetch (p : Program) (s : State) : Except OutOfRange (Instruction × State) :=
  (p.tape.seek s.pc).bind fun tape =>
    tape.read.map fun read => (read.1, { s with pc := read.2.position })

/-- Moves to an instruction, or behind the last one. -/
def goTo (p : Program) (s : State) (index : Nat) : Except OutOfRange State :=
  (p.tape.seek index).map fun tape => { s with pc := tape.position }

theorem fetch_of_get? {p : Program} {s : State} {i : Instruction} (h : p.get? s.pc = some i) :
    s.fetch p = .ok (i, { s with pc := s.pc + 1 }) := by
  obtain ⟨hlt, rfl⟩ := Array.getElem?_eq_some_iff.mp h
  have hseek : p.tape.seek s.pc = .ok ⟨p.instructions, s.pc, Nat.le_of_lt hlt⟩ :=
    dif_pos (Nat.le_of_lt hlt)
  have hread : (Tape.mk p.instructions s.pc (Nat.le_of_lt hlt)).read =
      .ok (p.instructions[s.pc], ⟨p.instructions, s.pc + 1, hlt⟩) :=
    dif_pos hlt
  unfold fetch
  rw [hseek]
  change Except.map _ (Tape.mk p.instructions s.pc (Nat.le_of_lt hlt)).read = _
  rw [hread]
  rfl

theorem fetch_of_get?_none {p : Program} {s : State} (h : p.get? s.pc = none) :
    s.fetch p = .error ⟨s.pc, p.size⟩ := by
  have hle : p.instructions.size ≤ s.pc := Array.getElem?_eq_none_iff.mp h
  unfold fetch
  rcases Nat.eq_or_lt_of_le hle with heq | hlt
  · have hseek : p.tape.seek s.pc = .ok ⟨p.instructions, s.pc, Nat.le_of_eq heq.symm⟩ :=
      dif_pos (Nat.le_of_eq heq.symm)
    have hread : (Tape.mk p.instructions s.pc (Nat.le_of_eq heq.symm)).read =
        .error ⟨s.pc, p.size⟩ :=
      dif_neg (Nat.not_lt.mpr hle)
    rw [hseek]
    change Except.map _ (Tape.mk p.instructions s.pc (Nat.le_of_eq heq.symm)).read = _
    rw [hread]
    rfl
  · have hseek : p.tape.seek s.pc = .error ⟨s.pc, p.size⟩ := dif_neg (Nat.not_le.mpr hlt)
    rw [hseek]
    rfl

theorem goTo_of_le {p : Program} {index : Nat} (h : index ≤ p.size) (s : State) :
    s.goTo p index = .ok { s with pc := index } := by
  have hseek : p.tape.seek index = .ok ⟨p.instructions, index, h⟩ := dif_pos h
  unfold goTo
  rw [hseek]
  rfl

theorem goTo_of_lt {p : Program} {index : Nat} (h : p.size < index) (s : State) :
    s.goTo p index = .error ⟨index, p.size⟩ := by
  have hseek : p.tape.seek index = .error ⟨index, p.size⟩ := dif_neg (Nat.not_le.mpr h)
  unfold goTo
  rw [hseek]
  rfl

end State

end AccumulatorMachine
