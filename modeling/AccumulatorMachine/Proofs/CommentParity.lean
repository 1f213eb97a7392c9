import AccumulatorMachine.Proofs.RemovedSpans

/-!
Which characters of a text are code, said without going through it from the left. It only counts how
many `#` stand before a character, and whether there is one behind it: with an even number before it a
character is outside of comments, and with none behind it there is nothing that could end a comment.
-/
namespace AccumulatorMachine.Source

/-- A character with the text before it and the text behind it is code. -/
def IsCode (before : List Char) (c : Char) (behind : List Char) : Prop :=
  Text.isBlank c = false ∧
  (c = '#' → before.count '#' % 2 = 0 ∧ '#' ∉ behind) ∧
  (c ≠ '#' → before.count '#' % 2 = 0 ∨ '#' ∉ behind)

instance (before : List Char) (c : Char) (behind : List Char) : Decidable (IsCode before c behind) :=
  inferInstanceAs (Decidable (_ ∧ (_ → _) ∧ (_ → _)))

/-- There is a character at the offset, and it is code. -/
def isCodeAt (chars : List Char) (offset : Nat) : Bool :=
  chars[offset]?.any fun c => decide (IsCode (chars.take offset) c (chars.drop (offset + 1)))

theorem isCodeAt_length (before : List Char) (c : Char) (behind : List Char) :
    isCodeAt (before ++ c :: behind) before.length = decide (IsCode before c behind) := by
  unfold isCodeAt
  rw [List.getElem?_append_right (Nat.le_refl _), Nat.sub_self, List.getElem?_cons_zero,
    List.take_left, List.drop_length_add_append]
  rfl

section Rule

variable {before behind : List Char} {c : Char}

theorem isCode_hash_iff :
    IsCode before '#' behind ↔ before.count '#' % 2 = 0 ∧ '#' ∉ behind := by
  constructor
  · intro h
    exact h.2.1 rfl
  · intro h
    exact ⟨rfl, fun _ => h, fun hne => absurd rfl hne⟩

theorem isCode_iff_of_ne (hc : c ≠ '#') : IsCode before c behind ↔
    Text.isBlank c = false ∧ (before.count '#' % 2 = 0 ∨ '#' ∉ behind) := by
  constructor
  · intro h
    exact ⟨h.1, h.2.2 hc⟩
  · intro h
    exact ⟨h.1, fun heq => absurd heq hc, fun _ => h.2⟩

end Rule

/-- What stands behind the first text begins inside of a comment: one is open there, and something
closes it. -/
def inside (before chars : List Char) : Bool :=
  decide (before.count '#' % 2 = 1 ∧ '#' ∈ chars)

section Scan

variable (before : List Char) {c : Char} (rest : List Char)

theorem mask_inside_hash : mask (inside before ('#' :: rest)) ('#' :: rest) =
    decide (IsCode before '#' rest) :: mask (inside (before ++ ['#']) rest) rest := by
  have hcount : (before ++ ['#']).count '#' = before.count '#' + 1 := by
    rw [List.count_append, List.count_singleton_self]
  by_cases hodd : before.count '#' % 2 = 1
  · have hinside : inside before ('#' :: rest) = true :=
      decide_eq_true ⟨hodd, List.mem_cons_self⟩
    have hbehind : inside (before ++ ['#']) rest = false := by
      apply decide_eq_false
      rw [hcount]
      omega
    have hno : ¬IsCode before '#' rest := by
      rw [isCode_hash_iff]
      omega
    rw [hinside, hbehind, decide_eq_false hno]
    rfl
  · have hinside : inside before ('#' :: rest) = false := decide_eq_false fun h => hodd h.1
    have heven : before.count '#' % 2 = 0 := by omega
    have hnext : (before ++ ['#']).count '#' % 2 = 1 := by omega
    rw [hinside, mask, if_neg Bool.false_ne_true, if_pos rfl]
    by_cases hmem : '#' ∈ rest
    · have hbehind : inside (before ++ ['#']) rest = true := decide_eq_true ⟨hnext, hmem⟩
      have hno : ¬IsCode before '#' rest := by
        rw [isCode_hash_iff]
        exact fun h => h.2 hmem
      rw [if_pos (List.contains_iff_mem.mpr hmem), hbehind, decide_eq_false hno]
    · have hbehind : inside (before ++ ['#']) rest = false := decide_eq_false fun h => hmem h.2
      have hyes : IsCode before '#' rest := isCode_hash_iff.mpr ⟨heven, hmem⟩
      rw [if_neg (fun h => hmem (List.contains_iff_mem.mp h)), hbehind, decide_eq_true hyes]

theorem mask_inside_of_ne (hc : c ≠ '#') : mask (inside before (c :: rest)) (c :: rest) =
    decide (IsCode before c rest) :: mask (inside (before ++ [c]) rest) rest := by
  have hcount : (before ++ [c]).count '#' = before.count '#' := by
    rw [List.count_append, List.count_singleton, beq_eq_false_iff_ne.mpr hc]
    rfl
  have hmem : '#' ∈ c :: rest ↔ '#' ∈ rest := by
    rw [List.mem_cons, or_iff_right (Ne.symm hc)]
  have hsame : inside (before ++ [c]) rest = inside before (c :: rest) := by
    apply decide_eq_decide.mpr
    rw [hcount, hmem]
  rw [hsame]
  cases hinside : inside before (c :: rest) with
  | true =>
    obtain ⟨hodd, hclosed⟩ := of_decide_eq_true hinside
    have hno : ¬IsCode before c rest := by
      rw [isCode_iff_of_ne hc]
      rintro ⟨-, heven | hnone⟩
      · omega
      · exact hnone (hmem.mp hclosed)
    have hopen : (c != '#') = true := bne_iff_ne.mpr hc
    rw [mask, if_pos rfl, hopen, decide_eq_false hno]
  | false =>
    have houtside := of_decide_eq_false hinside
    have hfree : before.count '#' % 2 = 0 ∨ '#' ∉ rest := by
      rw [not_and_or, hmem] at houtside
      exact houtside.imp_left fun h => by omega
    have hcode : decide (IsCode before c rest) = !Text.isBlank c := by
      rw [Bool.eq_iff_iff, decide_eq_true_iff, isCode_iff_of_ne hc, and_iff_left hfree,
        Bool.not_eq_true']
    rw [mask, if_neg Bool.false_ne_true, if_neg hc, hcode]

/-- One character of a text: the rule decides about it, and the count goes on behind it. -/
theorem mask_inside_cons (c : Char) : mask (inside before (c :: rest)) (c :: rest) =
    decide (IsCode before c rest) :: mask (inside (before ++ [c]) rest) rest := by
  by_cases hc : c = '#'
  · subst hc
    exact mask_inside_hash before rest
  · exact mask_inside_of_ne before rest hc

end Scan

theorem mask_inside_eq (before chars : List Char) : mask (inside before chars) chars =
    (List.range' before.length chars.length).map (isCodeAt (before ++ chars)) := by
  -- The text before is part of what is counted, so it grows along the text.
  induction chars generalizing before with
  | nil => rfl
  | cons c rest ih =>
    have hsplit : before ++ c :: rest = (before ++ [c]) ++ rest := by
      rw [List.append_assoc, List.singleton_append]
    have hlater := ih (before ++ [c])
    rw [List.length_append, List.length_singleton, ← hsplit] at hlater
    rw [mask_inside_cons, hlater, List.length_cons, List.range'_succ, List.map_cons,
      isCodeAt_length]

theorem mask_eq_isCodeAt (chars : List Char) :
    mask false chars = (List.range chars.length).map (isCodeAt chars) := by
  have hstart : inside [] chars = false := decide_eq_false fun h => absurd h.1 (by decide)
  calc mask false chars
    _ = mask (inside [] chars) chars := by rw [hstart]
    _ = (List.range' 0 chars.length).map (isCodeAt chars) := mask_inside_eq [] chars
    _ = (List.range chars.length).map (isCodeAt chars) := by rw [List.range_eq_range']

/-- The items that a mask over the offsets selects. -/
theorem select_map_range {α : Type} (q : Nat → Bool) (items : List α) :
    select items ((List.range items.length).map q) =
      ((List.range items.length).filter q).filterMap (items[·]?) := by
  have hsome : (select items ((List.range items.length).map q)).map some =
      ((List.range items.length).filter q).map (items[·]?) := by
    rw [← select_map, ← map_getElem?_range, select_map, select_map_self]
  calc select items ((List.range items.length).map q)
    _ = ((select items ((List.range items.length).map q)).map some).filterMap id := by
      rw [List.filterMap_map]
      exact List.filterMap_some.symm
    _ = ((List.range items.length).filter q).filterMap (items[·]?) := by
      rw [hsome, List.filterMap_map]
      rfl

/-- The stripped text has the characters of the source that are code, in their order: neither white space
nor, by the number of `#` before them and behind them, part of a comment. These are the characters that
no match of the pattern of what is removable covers. So there is no white space left, there is at most
one `#`, and stripping once more changes nothing. -/
theorem strip_keeps_code_by_parity (source : String) :
    strip source = ((List.range source.toList.length).filter (isCodeAt source.toList)).filterMap
      (source.toList[·]?) ∧
    (∃ spans, Removals 0 source.toList spans ∧
      (List.range source.toList.length).filter (isCodeAt source.toList) =
        (List.range source.toList.length).filter (isKept spans)) ∧
    (strip source).any Text.isBlank = false ∧ (strip source).count '#' ≤ 1 ∧
    strip (.ofList (strip source)) = strip source := by
  refine ⟨?_, ?_, ?_, count_hash_code_le_one false _, strip_of_sublist (List.Sublist.refl _)⟩
  · unfold strip
    rw [mask_eq_isCodeAt, select_map_range]
  · obtain ⟨spans, hspans⟩ := exists_removals 0 source.toList
    have hmasks : (List.range source.toList.length).map (isCodeAt source.toList) =
        (List.range source.toList.length).map (isKept spans) := by
      rw [← mask_eq_isCodeAt, hspans.mask_eq, List.range_eq_range']
    exact ⟨spans, hspans, List.filter_congr (List.map_inj_left.mp hmasks)⟩
  · rw [List.any_eq_false]
    intro c hc
    rw [(mem_code hc).2]
    exact Bool.false_ne_true

example : strip "##a #b\n#c # d" = ['a', 'c', '#', 'd'] := by decide

end AccumulatorMachine.Source
