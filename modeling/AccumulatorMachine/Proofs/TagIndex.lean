import AccumulatorMachine.Program
import Mathlib.Data.List.Infix

/-!
Tag tables as indices of lists of names. A list tells for each instruction, or each block, the name
of the tag it defines, if any. A table indexes a list when it holds exactly the names of the list
with their places, which it can do only if no name occurs twice.
-/
namespace AccumulatorMachine

/-- The tag is defined at the given place of a list of names. -/
def DefinedAt (names : List (Option String)) (name : String) (index : Nat) : Prop :=
  names[index]? = some (some name)

/-- No name occurs twice. -/
def DistinctNames (names : List (Option String)) : Prop :=
  ∀ name i j, DefinedAt names name i → DefinedAt names name j → i = j

theorem DefinedAt.lt_length {names : List (Option String)} {name : String} {index : Nat}
    (h : DefinedAt names name index) : index < names.length :=
  (List.getElem?_eq_some_iff.mp h).1

theorem DefinedAt.append {names : List (Option String)} {name : String} {index : Nat}
    (h : DefinedAt names name index) (later : List (Option String)) :
    DefinedAt (names ++ later) name index := by
  unfold DefinedAt
  rw [List.getElem?_append_left h.lt_length]
  exact h

theorem DefinedAt.of_append {names later : List (Option String)} {name : String} {index : Nat}
    (h : DefinedAt (names ++ later) name index) (hlt : index < names.length) :
    DefinedAt names name index := by
  unfold DefinedAt at h ⊢
  rwa [List.getElem?_append_left hlt] at h

theorem definedAt_append_cons_iff (names later : List (Option String)) (entry : Option String)
    (name : String) :
    DefinedAt (names ++ entry :: later) name names.length ↔ entry = some name := by
  unfold DefinedAt
  rw [List.getElem?_append_right (Nat.le_refl _), Nat.sub_self, List.getElem?_cons_zero,
    Option.some.injEq]

theorem definedAt_snoc_iff (names : List (Option String)) (entry : Option String) (name : String)
    (index : Nat) : DefinedAt (names ++ [entry]) name index ↔
      DefinedAt names name index ∨ (index = names.length ∧ entry = some name) := by
  constructor
  · intro h
    have hlt := h.lt_length
    rw [List.length_append, List.length_singleton] at hlt
    rcases Nat.lt_or_eq_of_le (Nat.le_of_lt_succ hlt) with hlt | rfl
    · exact Or.inl (h.of_append hlt)
    · exact Or.inr ⟨rfl, (definedAt_append_cons_iff names [] entry name).mp h⟩
  · rintro (h | ⟨rfl, h⟩)
    · exact h.append _
    · exact (definedAt_append_cons_iff names [] entry name).mpr h

theorem DistinctNames.of_append {names later : List (Option String)}
    (h : DistinctNames (names ++ later)) : DistinctNames names := by
  intro name i j hi hj
  exact h name i j (hi.append later) (hj.append later)

namespace TagTable

/-- The table holds exactly the names of the list, each with its place. -/
def Indexes (tags : TagTable) (names : List (Option String)) : Prop :=
  ∀ name index, tags[name]? = some index ↔ DefinedAt names name index

theorem Indexes.distinct {tags : TagTable} {names : List (Option String)} (h : tags.Indexes names) :
    DistinctNames names := by
  intro name i j hi hj
  have hsome := ((h name i).mpr hi).symm.trans ((h name j).mpr hj)
  exact Option.some.inj hsome

theorem Indexes.unique {tags tags' : TagTable} {names : List (Option String)}
    (h : tags.Indexes names) (h' : tags'.Indexes names) : tags = tags' := by
  apply Std.ExtTreeMap.ext_getElem?
  intro name
  apply Option.ext
  intro index
  exact (h name index).trans (h' name index).symm

theorem Indexes.getElem?_eq_none {tags : TagTable} {names : List (Option String)}
    (h : tags.Indexes names) (name : String) :
    tags[name]? = none ↔ ∀ index, ¬DefinedAt names name index := by
  constructor
  · intro hnone index hdefined
    have hsome := (h name index).mpr hdefined
    rw [hnone] at hsome
    cases hsome
  · intro hno
    by_contra hsome
    obtain ⟨index, hindex⟩ := Option.ne_none_iff_exists'.mp hsome
    exact hno index ((h name index).mp hindex)

theorem indexes_empty : (∅ : TagTable).Indexes [] := by
  intro name index
  simp [DefinedAt]

theorem Indexes.skip {tags : TagTable} {names : List (Option String)} (h : tags.Indexes names) :
    tags.Indexes (names ++ [none]) := by
  intro name index
  rw [h name index, definedAt_snoc_iff]
  simp

theorem Indexes.insert {tags : TagTable} {names : List (Option String)} (h : tags.Indexes names)
    {name : String} (hnew : ∀ index, ¬DefinedAt names name index) :
    TagTable.Indexes (tags.insert name names.length) (names ++ [some name]) := by
  intro other index
  rw [definedAt_snoc_iff, Std.ExtTreeMap.getElem?_insert]
  by_cases hname : name = other
  · subst hname
    simp [hnew, eq_comm]
  · simp [h other index, hname]

/-- Entering the names of instructions gives the index of all names, if they are distinct. -/
theorem Indexes.addAll {tags : TagTable} {names : List (Option String)} (h : tags.Indexes names)
    (instructions : List Instruction)
    (hdistinct : DistinctNames (names ++ instructions.map Instruction.tagName)) :
    (tags.addAll names.length instructions).Indexes
      (names ++ instructions.map Instruction.tagName) := by
  induction instructions generalizing tags names with
  | nil => simpa [TagTable.addAll] using h
  | cons i rest ih =>
    have hsplit : names ++ (i :: rest).map Instruction.tagName =
        names ++ [i.tagName] ++ rest.map Instruction.tagName := by simp
    rw [hsplit] at hdistinct ⊢
    have hlen : names.length + 1 = (names ++ [i.tagName]).length := by simp
    unfold TagTable.addAll
    cases hname : i.tagName with
    | none =>
      rw [hname] at hdistinct hlen
      dsimp only
      rw [hlen]
      exact ih h.skip hdistinct
    | some name =>
      rw [hname] at hdistinct hlen
      have hnew : ∀ index, ¬DefinedAt names name index := by
        intro index hindex
        have hlast := (definedAt_append_cons_iff names [] (some name) name).mpr rfl
        have heq := hdistinct.of_append name index names.length (hindex.append _) hlast
        have hlt := hindex.lt_length
        omega
      dsimp only
      rw [hlen]
      exact ih (h.insert hnew) hdistinct

theorem indexes_ofInstructions (instructions : Array Instruction)
    (hdistinct : DistinctNames (instructions.toList.map Instruction.tagName)) :
    (Program.ofInstructions instructions).tags.Indexes
      (instructions.toList.map Instruction.tagName) :=
  indexes_empty.addAll instructions.toList hdistinct

end TagTable

end AccumulatorMachine
