/-!
A tape: a finite sequence of items with a head that stands before one of them, or behind the last.
The head moves on by reading. It can go back, and it can be put at any place.
-/
namespace AccumulatorMachine

/-- A position that a sequence of the given length does not have. -/
structure OutOfRange where
  index : Nat
  length : Nat
deriving DecidableEq, Repr

def OutOfRange.message (e : OutOfRange) : String :=
  s!"Position {e.index} out of range (length {e.length})"

@[ext]
structure Tape (α : Type) where
  items : Array α
  position : Nat
  position_le : position ≤ items.size
deriving DecidableEq

namespace Tape

variable {α : Type}

def ofArray (items : Array α) : Tape α :=
  ⟨items, 0, Nat.zero_le _⟩

def size (t : Tape α) : Nat :=
  t.items.size

def atEnd (t : Tape α) : Bool :=
  decide (t.size ≤ t.position)

/-- The item under the head. -/
def peek? (t : Tape α) : Option α :=
  t.items[t.position]?

/-- The items from the head on. -/
def remaining (t : Tape α) : List α :=
  t.items.toList.drop t.position

/-- Takes the item under the head and moves on by one. -/
def read (t : Tape α) : Except OutOfRange (α × Tape α) :=
  if h : t.position < t.items.size then
    .ok (t.items[t.position], { t with position := t.position + 1, position_le := h })
  else .error ⟨t.position, t.size⟩

/-- Moves the head back, at most to the start. -/
def back (t : Tape α) (count : Nat) : Tape α :=
  { t with position := t.position - count, position_le := Nat.le_trans (Nat.sub_le ..) t.position_le }

/-- Puts the head before the item of that index, or behind the last one. -/
def seek (t : Tape α) (index : Nat) : Except OutOfRange (Tape α) :=
  if h : index ≤ t.items.size then .ok { t with position := index, position_le := h }
  else .error ⟨index, t.size⟩

def rewind (t : Tape α) : Tape α :=
  { t with position := 0, position_le := Nat.zero_le _ }

theorem position_of_read {t u : Tape α} {a : α} (h : t.read = .ok (a, u)) :
    u.items = t.items ∧ u.position = t.position + 1 := by
  unfold read at h
  split at h
  · obtain ⟨-, rfl⟩ := Prod.mk.inj (Except.ok.inj h)
    exact ⟨rfl, rfl⟩
  · cases h

/-- Moving on leaves fewer items. -/
theorem left_lt {t u : Tape α} (hitems : u.items = t.items) (hlt : t.position < u.position) :
    u.size - u.position < t.size - t.position := by
  have hle := u.position_le
  unfold size
  rw [hitems] at hle ⊢
  omega

theorem left_of_read {t u : Tape α} {a : α} (h : t.read = .ok (a, u)) :
    u.size - u.position < t.size - t.position := by
  obtain ⟨hitems, hposition⟩ := position_of_read h
  exact left_lt hitems (by omega)

/-- Reads on as long as the item under the head has a property. -/
def readWhile (p : α → Bool) (t : Tape α) : List α × Tape α :=
  match h : t.read with
  | .error _ => ([], t)
  | .ok (a, next) =>
    if p a then
      have := left_of_read h
      let later := next.readWhile p
      (a :: later.1, later.2)
    else ([], t)
termination_by t.size - t.position
decreasing_by assumption

/-- The second tape has the items of the first, and its head stands at the same place or behind. -/
def Reaches (t u : Tape α) : Prop :=
  u.items = t.items ∧ t.position ≤ u.position

namespace Reaches

theorem refl (t : Tape α) : t.Reaches t :=
  ⟨rfl, Nat.le_refl _⟩

theorem trans {t u v : Tape α} (htu : t.Reaches u) (huv : u.Reaches v) : t.Reaches v :=
  ⟨huv.1.trans htu.1, Nat.le_trans htu.2 huv.2⟩

theorem of_read {t u : Tape α} {a : α} (h : t.read = .ok (a, u)) : t.Reaches u := by
  obtain ⟨hitems, hposition⟩ := position_of_read h
  exact ⟨hitems, by omega⟩

end Reaches

theorem reaches_readWhile (p : α → Bool) (t : Tape α) : t.Reaches (t.readWhile p).2 := by
  fun_induction readWhile p t with
  | case1 t _ _ => exact .refl t
  | case2 t a next h hp hlt later ih => exact (Reaches.of_read h).trans ih
  | case3 t a next h hp => exact .refl t

theorem atEnd_iff (t : Tape α) : t.atEnd = true ↔ t.position = t.size := by
  rw [atEnd, decide_eq_true_iff]
  exact ⟨Nat.le_antisymm t.position_le, fun h => Nat.le_of_eq h.symm⟩

theorem length_le_size_append (front rest : List α) :
    front.length ≤ (front ++ rest).toArray.size := by
  rw [List.size_toArray, List.length_append]
  exact Nat.le_add_right _ _

/-- The tape of two parts, with the head between them. -/
def between (front rest : List α) : Tape α :=
  ⟨(front ++ rest).toArray, front.length, length_le_size_append front rest⟩

theorem eq_between (t : Tape α) : t = between (t.items.toList.take t.position) t.remaining := by
  have hle : t.position ≤ t.items.toList.length := by
    rw [Array.length_toList]
    exact t.position_le
  apply Tape.ext
  · change t.items = (t.items.toList.take t.position ++ t.items.toList.drop t.position).toArray
    rw [List.take_append_drop, Array.toArray_toList]
  · exact (List.length_take_of_le hle).symm

theorem exists_between (t : Tape α) : ∃ front rest, t = between front rest :=
  ⟨_, _, t.eq_between⟩

theorem ofArray_toArray (items : List α) : ofArray items.toArray = between [] items :=
  rfl

section Between

variable (front rest : List α)

@[simp]
theorem position_between : (between front rest).position = front.length :=
  rfl

@[simp]
theorem items_between : (between front rest).items = (front ++ rest).toArray :=
  rfl

@[simp]
theorem remaining_between : (between front rest).remaining = rest :=
  List.drop_left

@[simp]
theorem atEnd_between : (between front rest).atEnd = rest.isEmpty := by
  rw [Bool.eq_iff_iff, atEnd_iff, List.isEmpty_iff]
  simp [size]

@[simp]
theorem peek?_between : (between front rest).peek? = rest.head? := by
  rw [peek?, items_between, position_between, List.getElem?_toArray,
    List.getElem?_append_right (Nat.le_refl _), Nat.sub_self, List.head?_eq_getElem?]

theorem read_between_nil :
    (between front ([] : List α)).read = .error ⟨front.length, front.length⟩ := by
  simp [read, size]

theorem read_between_cons (a : α) :
    (between front (a :: rest)).read = .ok (a, between (front ++ [a]) rest) := by
  have hlt : front.length < (front ++ a :: rest).toArray.size := by simp
  have hnext : (⟨(front ++ a :: rest).toArray, front.length + 1, hlt⟩ : Tape α) =
      between (front ++ [a]) rest := by
    apply Tape.ext
    · simp
    · simp
  have ha : (front ++ a :: rest).toArray[front.length] = a := by simp
  have hread : (between front (a :: rest)).read =
      .ok ((front ++ a :: rest).toArray[front.length], ⟨_, front.length + 1, hlt⟩) :=
    dif_pos hlt
  rw [hread, ha, hnext]

theorem back_between (part : List α) :
    (between (front ++ part) rest).back part.length = between front (part ++ rest) := by
  apply Tape.ext
  · simp [back]
  · simp [back]

theorem readWhile_between (p : α → Bool) : (between front rest).readWhile p =
    (rest.takeWhile p, between (front ++ rest.takeWhile p) (rest.dropWhile p)) := by
  induction rest generalizing front with
  | nil =>
    rw [readWhile]
    split
    · simp
    · rename_i hread
      rw [read_between_nil] at hread
      cases hread
  | cons a rest ih =>
    rw [readWhile]
    split
    · rename_i hread
      rw [read_between_cons] at hread
      cases hread
    · rename_i hread
      rw [read_between_cons] at hread
      obtain ⟨rfl, rfl⟩ := Prod.mk.inj (Except.ok.inj hread)
      by_cases ha : p a = true
      · simp [ha, ih]
      · simp [ha]

end Between

theorem read_of_peek? {t : Tape α} {a : α} (h : t.peek? = some a) : ∃ u, t.read = .ok (a, u) := by
  obtain ⟨front, rest, rfl⟩ := t.exists_between
  rw [peek?_between] at h
  obtain ⟨later, rfl⟩ := List.head?_eq_some_iff.mp h
  exact ⟨_, read_between_cons front later a⟩

theorem read_of_remaining_eq_nil {t : Tape α} (h : t.remaining = []) :
    t.read = .error ⟨t.position, t.size⟩ := by
  have hle : t.items.size ≤ t.position := by simpa [remaining] using h
  rw [read, dif_neg (by omega)]

theorem read_of_remaining_eq_cons {t : Tape α} {a : α} {rest : List α}
    (h : t.remaining = a :: rest) : ∃ u, t.read = .ok (a, u) ∧ u.remaining = rest := by
  obtain ⟨front, rest', rfl⟩ := t.exists_between
  obtain rfl : rest' = a :: rest := by rwa [remaining_between] at h
  exact ⟨_, read_between_cons front rest a, remaining_between _ _⟩

end Tape

end AccumulatorMachine
