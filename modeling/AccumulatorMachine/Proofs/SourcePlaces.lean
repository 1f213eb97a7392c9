import AccumulatorMachine.Proofs.RemovedSpans

/-!
Stripping and locating keep the same characters. The line map comes from a walk along the spans of
what is taken away, in bytes, and of every character that it keeps it knows the place, under the
number that the character has in the stripped text.
-/
namespace AccumulatorMachine.Source

/-- Going along ordered spans, only the first that is not behind has to be looked at. -/
theorem all_head?_dropWhile {spans : List Span} (hapart : Apart spans) (offset : Nat) :
    ((spans.dropWhile fun span => decide (span.stop ≤ offset)).head?.all
      fun span => decide (offset < span.start)) = isKept spans offset := by
  induction spans with
  | nil => rfl
  | cons span spans ih =>
    obtain ⟨hfirst, hlater⟩ := List.pairwise_cons.mp hapart
    rw [isKept_cons]
    by_cases hbehind : span.stop ≤ offset
    · rw [List.dropWhile_cons, decide_eq_true hbehind, if_pos rfl, ih hlater,
        Span.not_contains_of_stop_le hbehind]
      rfl
    · have hkept : isKept spans offset = true := by
        rw [isKept_iff]
        intro other hother
        have hle := hfirst other hother
        exact Span.not_contains_of_lt_start (by omega)
      have hin : (!span.contains offset) = decide (offset < span.start) := by
        unfold Span.contains
        rw [← decide_not]
        apply decide_eq_decide.mpr
        omega
      rw [List.dropWhile_cons, decide_eq_false hbehind, if_neg Bool.false_ne_true, hkept, hin,
        Bool.and_true]
      rfl

/-- The place behind a text: one line more for each line feed in it, and one column more for each
character since the last of them. -/
def placeAfter (chars : List Char) : Location :=
  ⟨1 + chars.count '\n', 1 + (chars.reverse.takeWhile (· != '\n')).length⟩

theorem placeAfter_snoc (chars : List Char) (c : Char) :
    placeAfter (chars ++ [c]) = (placeAfter chars).after c := by
  unfold placeAfter Location.after
  rw [List.count_append, List.reverse_append, List.reverse_singleton, List.singleton_append]
  by_cases hc : c = '\n'
  · subst hc
    rfl
  · have hstays : (c != '\n') = true := by simpa using hc
    have hnone : [c].count '\n' = 0 := List.count_eq_zero.mpr (by simpa using Ne.symm hc)
    rw [if_neg hc, hnone, List.takeWhile_cons, hstays, if_pos rfl, List.length_cons]
    rfl

/-- The offsets of the characters that the spans, which are in bytes, leave. -/
def keptOffsets (spans : List Span) (chars : List Char) : List Nat :=
  (List.range chars.length).filter fun j => isKept spans (byteOffset chars j)

theorem keptOffsets_snoc (spans : List Span) (chars : List Char) (c : Char) :
    keptOffsets spans (chars ++ [c]) = keptOffsets spans chars ++
      if isKept spans (byteSize chars) then [chars.length] else [] := by
  have hbefore : ∀ j ∈ List.range chars.length,
      isKept spans (byteOffset (chars ++ [c]) j) = isKept spans (byteOffset chars j) := by
    intro j hj
    unfold byteOffset
    rw [List.take_append_of_le_length (List.mem_range.mp hj).le]
  unfold keptOffsets
  rw [List.length_append, List.length_singleton, List.range_succ, List.filter_append,
    List.filter_congr hbefore, List.filter_singleton, byteOffset_length_append,
    Bool.cond_eq_ite]

/-- What a walk along the spans knows when it has passed a text. -/
structure Walk.Passed (spans : List Span) (chars : List Char) (walk : Walk) : Prop where
  offset : walk.offset = byteSize chars
  place : walk.place = placeAfter chars
  removed : ∃ behind, spans = behind ++ walk.removed ∧ ∀ span ∈ behind, span.stop ≤ walk.offset
  code : walk.code.toList = (keptOffsets spans chars).map fun j => placeAfter (chars.take j)

theorem isKept_append_of_behind {behind spans : List Span} {offset : Nat}
    (h : ∀ span ∈ behind, span.stop ≤ offset) :
    isKept (behind ++ spans) offset = isKept spans offset := by
  have hbehind : isKept behind offset = true := by
    rw [isKept_iff]
    exact fun span hspan => Span.not_contains_of_stop_le (h span hspan)
  unfold isKept at hbehind ⊢
  rw [List.all_append, hbehind, Bool.true_and]

theorem Walk.Passed.pass {spans : List Span} {chars : List Char} {walk : Walk}
    (h : walk.Passed spans chars) (hapart : Apart spans) (c : Char) :
    (walk.pass c).Passed spans (chars ++ [c]) := by
  obtain ⟨behind, hspans, hbehind⟩ := h.removed
  have hkept : ((walk.removed.dropWhile fun span => decide (span.stop ≤ walk.offset)).head?.all
      fun span => decide (walk.offset < span.start)) = isKept spans (byteSize chars) := by
    have hlater : Apart walk.removed := by
      rw [hspans] at hapart
      exact (List.pairwise_append.mp hapart).2.1
    rw [all_head?_dropWhile hlater, ← isKept_append_of_behind hbehind, ← hspans, h.offset]
  constructor
  case offset =>
    change walk.offset + c.utf8Size = _
    rw [h.offset, byteSize_append, byteSize_singleton]
  case place =>
    change walk.place.after c = _
    rw [h.place, placeAfter_snoc]
  case removed =>
    refine ⟨behind ++ walk.removed.takeWhile fun span => decide (span.stop ≤ walk.offset), ?_, ?_⟩
    · change spans = behind ++ _ ++ walk.removed.dropWhile _
      rw [List.append_assoc, List.takeWhile_append_dropWhile, ← hspans]
    · intro span hspan
      have hstop : span.stop ≤ walk.offset := by
        rcases List.mem_append.mp hspan with hspan | hspan
        · exact hbehind span hspan
        · have hstop := List.mem_takeWhile_imp hspan
          exact of_decide_eq_true hstop
      exact hstop.trans (Nat.le_add_right _ _)
  case code =>
    have hbefore : (keptOffsets spans chars).map (fun j => placeAfter ((chars ++ [c]).take j)) =
        (keptOffsets spans chars).map fun j => placeAfter (chars.take j) := by
      apply List.map_congr_left
      intro j hj
      have hlt := List.mem_range.mp (List.mem_filter.mp hj).1
      rw [List.take_append_of_le_length hlt.le]
    rw [keptOffsets_snoc, List.map_append, hbefore, ← h.code]
    unfold Walk.pass
    dsimp only
    rw [hkept, h.place]
    cases isKept spans (byteSize chars) with
    | true => simp
    | false => simp

theorem passed_foldl {spans : List Span} (hapart : Apart spans) (chars : List Char) :
    (chars.foldl Walk.pass { removed := spans }).Passed spans chars := by
  induction chars using List.reverseRecOn with
  | nil => exact ⟨rfl, rfl, ⟨[], rfl, by simp⟩, rfl⟩
  | append_singleton chars c ih =>
    rw [List.foldl_append]
    exact ih.pass hapart c

/-- The stripped text and the line map go back to the same offsets of the source: those that no match
of the pattern covers, in ascending order. The line map is made by a walk along these matches, in
bytes. The place of each character is told by the characters before it, and behind the last of them
stands the end of the source. -/
theorem locate_agrees_with_strip (source : String) : ∃ (spans : List Span) (offsets : List Nat),
    (∀ other, Removals 0 source.toList other ↔ other = spans) ∧
    removals 0 source.toList = spans.map (Span.inBytes source.toList) ∧
    offsets.Pairwise (· < ·) ∧
    (∀ j, j ∈ offsets ↔ j < source.toList.length ∧ ∀ span ∈ spans, span.contains j = false) ∧
    (strip source).map some = offsets.map (source.toList[·]?) ∧
    ∀ i, (LineMap.ofSource source).locate i = match offsets[i]? with
      | some j => placeAfter (source.toList.take j)
      | none => placeAfter source.toList := by
  obtain ⟨spans, hspans⟩ := exists_removals 0 source.toList
  have hremovals : removals 0 source.toList = spans.map (Span.inBytes source.toList) :=
    hspans.removals_eq [] rfl
  have hordered : Ordered source.toList.length spans := by
    have hordered := hspans.ordered
    rwa [Nat.zero_add] at hordered
  have hmask : mask false source.toList =
      (List.range source.toList.length).map (isKept spans) := by
    rw [hspans.mask_eq, List.range_eq_range']
  refine ⟨spans, (List.range source.toList.length).filter (isKept spans), fun other => ?_,
    hremovals, ?_, fun j => ?_, ?_, fun i => ?_⟩
  · exact ⟨fun h => h.unique hspans, fun h => h ▸ hspans⟩
  · exact List.pairwise_lt_range.filter _
  · rw [List.mem_filter, List.mem_range, isKept_iff]
  · unfold strip
    rw [← select_map, ← map_getElem?_range, select_map, hmask, select_map_self]
  · have hkept : keptOffsets (spans.map (Span.inBytes source.toList)) source.toList =
        (List.range source.toList.length).filter (isKept spans) :=
      List.filter_congr fun j hj => hordered.isKept_inBytes (List.mem_range.mp hj).le
    have hpassed := passed_foldl hordered.inBytes source.toList
    have hcode := hpassed.code
    rw [hkept] at hcode
    unfold LineMap.ofSource LineMap.locate
    rw [hremovals]
    dsimp only
    rw [Array.getD_eq_getD_getElem?, ← Array.getElem?_toList, hcode, hpassed.place,
      List.getElem?_map]
    cases ((List.range source.toList.length).filter (isKept spans))[i]? with
    | some j => rfl
    | none => rfl

end AccumulatorMachine.Source
