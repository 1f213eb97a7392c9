import AccumulatorMachine.Source.Strip
import Mathlib.Data.List.Infix

/-!
The code of a text, one character at a time. What is left has no white space and at most one `#`;
and a text that has at most one `#` from the start only loses its white space. Where no comment goes
over the seam of two texts, the code of both together is that of one after that of the other.
-/
namespace AccumulatorMachine.Source

/-- The characters of a text that are code. -/
def code (inComment : Bool) (chars : List Char) : List Char :=
  select chars (mask inComment chars)

theorem strip_eq_code (source : String) : strip source = code false source.toList :=
  rfl

theorem select_cons {α : Type} (item : α) (items : List α) (kept : Bool) (mask : List Bool) :
    select (item :: items) (kept :: mask) =
      if kept then item :: select items mask else select items mask := by
  cases kept with
  | true => rfl
  | false => rfl

theorem select_sublist {α : Type} (items : List α) (mask : List Bool) :
    (select items mask).Sublist items := by
  induction items generalizing mask with
  | nil => exact List.Sublist.refl _
  | cons item items ih =>
    cases mask with
    | nil => exact List.nil_sublist _
    | cons kept mask =>
      rw [select_cons]
      cases kept with
      | true => exact (ih mask).cons_cons item
      | false => exact (ih mask).cons item

theorem ne_hash_of_isBlank {c : Char} (h : Text.isBlank c = true) : c ≠ '#' := by
  rintro rfl
  exact absurd h (by decide)

theorem code_comment_cons (c : Char) (rest : List Char) :
    code true (c :: rest) = code (c != '#') rest :=
  rfl

theorem code_hash_cons (rest : List Char) : code false ('#' :: rest) =
    if '#' ∈ rest then code true rest else '#' :: code false rest := by
  unfold code
  rw [mask, if_neg Bool.false_ne_true, if_pos rfl]
  by_cases h : '#' ∈ rest
  · rw [if_pos (by simpa using h), if_pos h, select_cons, if_neg Bool.false_ne_true]
  · rw [if_neg (by simpa using h), if_neg h, select_cons, if_pos rfl]

theorem code_cons_of_ne {c : Char} (hc : c ≠ '#') (rest : List Char) : code false (c :: rest) =
    if Text.isBlank c then code false rest else c :: code false rest := by
  unfold code
  rw [mask, if_neg Bool.false_ne_true, if_neg hc, select_cons]
  cases Text.isBlank c with
  | true => rfl
  | false => rfl

theorem mem_code {inComment : Bool} {chars : List Char} {c : Char} (h : c ∈ code inComment chars) :
    c ∈ chars ∧ Text.isBlank c = false := by
  induction chars generalizing inComment with
  | nil => cases h
  | cons d rest ih =>
    have hlater {b : Bool} (hb : c ∈ code b rest) : c ∈ d :: rest ∧ Text.isBlank c = false :=
      ⟨List.mem_cons_of_mem _ (ih hb).1, (ih hb).2⟩
    cases inComment with
    | true =>
      rw [code_comment_cons] at h
      exact hlater h
    | false =>
      by_cases hd : d = '#'
      · subst hd
        rw [code_hash_cons] at h
        split at h
        · exact hlater h
        · rcases List.mem_cons.mp h with rfl | h
          · exact ⟨List.mem_cons_self, rfl⟩
          · exact hlater h
      · rw [code_cons_of_ne hd] at h
        split at h
        · exact hlater h
        · rename_i hblank
          rcases List.mem_cons.mp h with rfl | h
          · exact ⟨List.mem_cons_self, Bool.eq_false_iff.mpr hblank⟩
          · exact hlater h

theorem count_hash_code_le_one (inComment : Bool) (chars : List Char) :
    (code inComment chars).count '#' ≤ 1 := by
  induction chars generalizing inComment with
  | nil => exact Nat.zero_le _
  | cons c rest ih =>
    cases inComment with
    | true =>
      rw [code_comment_cons]
      exact ih _
    | false =>
      by_cases hc : c = '#'
      · subst hc
        rw [code_hash_cons]
        split
        · exact ih _
        · rename_i hrest
          have hnone : '#' ∉ code false rest := fun h => hrest (mem_code h).1
          rw [List.count_cons_self, List.count_eq_zero.mpr hnone]
      · rw [code_cons_of_ne hc]
        split
        · exact ih _
        · rw [List.count_cons_of_ne hc]
          exact ih _

/-- A single `#` opens no comment. -/
theorem code_of_count_le_one {chars : List Char} (h : chars.count '#' ≤ 1) :
    code false chars = chars.filter fun c => !Text.isBlank c := by
  induction chars with
  | nil => rfl
  | cons c rest ih =>
    by_cases hc : c = '#'
    · subst hc
      rw [List.count_cons_self] at h
      have hrest : '#' ∉ rest := List.count_eq_zero.mp (by omega)
      rw [code_hash_cons, if_neg hrest, ih (by omega)]
      rfl
    · rw [List.count_cons_of_ne hc] at h
      rw [code_cons_of_ne hc, List.filter_cons, ih h]
      cases Text.isBlank c with
      | true => rfl
      | false => rfl

/-- A part of a stripped text needs no stripping. -/
theorem strip_of_sublist {source : String} {part : List Char} (h : part.Sublist (strip source)) :
    strip (.ofList part) = part := by
  have hcount : part.count '#' ≤ 1 :=
    Nat.le_trans (h.count_le '#') (count_hash_code_le_one false source.toList)
  rw [strip_eq_code, String.toList_ofList, code_of_count_le_one hcount]
  apply List.filter_eq_self.mpr
  intro c hc
  have hblank := (mem_code (h.subset hc)).2
  rw [hblank]
  rfl

/-- No comment that starts in the first text ends in the second: the first one closes all that it
opens, or there is nothing in the second one to close it. -/
def Seam (inComment : Bool) (chars later : List Char) : Prop :=
  (chars.count '#' + inComment.toNat) % 2 = 0 ∨
    '#' ∉ later ∧ (inComment = true → '#' ∈ chars)

namespace Seam

variable {inComment : Bool} {c : Char} {rest later : List Char}

theorem of_ne (hc : c ≠ '#') (h : Seam inComment (c :: rest) later) :
    Seam inComment rest later := by
  unfold Seam at h ⊢
  rw [List.count_cons_of_ne hc] at h
  refine h.imp_right fun hlater => ⟨hlater.1, fun hin => ?_⟩
  exact List.mem_of_ne_of_mem (Ne.symm hc) (hlater.2 hin)

theorem of_closing (h : Seam true ('#' :: rest) later) : Seam false rest later := by
  rcases h with heven | ⟨hlater, -⟩
  · rw [List.count_cons_self, Bool.toNat_true, Nat.add_assoc, Nat.add_mod_right] at heven
    exact Or.inl heven
  · exact Or.inr ⟨hlater, fun hno => nomatch hno⟩

theorem of_opening (h : Seam false ('#' :: rest) later) (hmem : '#' ∈ rest) :
    Seam true rest later := by
  rcases h with heven | ⟨hlater, -⟩
  · rw [List.count_cons_self] at heven
    exact Or.inl heven
  · exact Or.inr ⟨hlater, fun _ => hmem⟩

/-- A `#` without a partner finds none behind the seam. -/
theorem not_mem (h : Seam false ('#' :: rest) later) (hmem : '#' ∉ rest) : '#' ∉ later := by
  rcases h with heven | ⟨hlater, -⟩
  · rw [List.count_cons_self, List.count_eq_zero.mpr hmem] at heven
    exact absurd heven (by decide)
  · exact hlater

end Seam

theorem code_append {inComment : Bool} {chars later : List Char}
    (h : Seam inComment chars later) :
    code inComment (chars ++ later) = code inComment chars ++ code false later := by
  induction chars generalizing inComment with
  | nil =>
    cases inComment with
    | false => rfl
    | true =>
      rcases h with hodd | ⟨-, hmem⟩
      · exact absurd hodd (by decide)
      · cases hmem rfl
  | cons c rest ih =>
    rw [List.cons_append]
    by_cases hc : c = '#'
    · subst hc
      cases inComment with
      | true => exact ih h.of_closing
      | false =>
        rw [code_hash_cons, code_hash_cons]
        by_cases hmem : '#' ∈ rest
        · rw [if_pos (List.mem_append_left _ hmem), if_pos hmem]
          exact ih (h.of_opening hmem)
        · have hlater : '#' ∉ later := h.not_mem hmem
          have hnone : '#' ∉ rest ++ later := by simp [hmem, hlater]
          have hseam : Seam false rest later := Or.inr ⟨hlater, fun hno => nomatch hno⟩
          rw [if_neg hnone, if_neg hmem, List.cons_append, ih hseam]
    · cases inComment with
      | true =>
        rw [code_comment_cons, code_comment_cons, show (c != '#') = true by simpa using hc]
        exact ih (h.of_ne hc)
      | false =>
        rw [code_cons_of_ne hc, code_cons_of_ne hc, ih (h.of_ne hc)]
        cases Text.isBlank c with
        | true => rfl
        | false => rfl

/-- Two texts can be stripped one after the other if the first has all its comments closed, or the
second has no `#`. -/
theorem strip_append {source later : String}
    (h : source.toList.count '#' % 2 = 0 ∨ '#' ∉ later.toList) :
    strip (source ++ later) = strip source ++ strip later := by
  rw [strip_eq_code, strip_eq_code, strip_eq_code, String.toList_append]
  apply code_append
  rcases h with heven | hnone
  · exact Or.inl heven
  · exact Or.inr ⟨hnone, fun hno => nomatch hno⟩

end AccumulatorMachine.Source
