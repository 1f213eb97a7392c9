import AccumulatorMachine.Assembly
import AccumulatorMachine.Proofs.Stripping

/-!
Layout carries no meaning. White space can be put anywhere into a source, also inside a word or a
comment, and a whole comment anywhere outside of comments: the code of the source stays the same,
and assembly sees nothing else of it.
-/
namespace AccumulatorMachine

namespace Source

variable {inComment : Bool} {chars blanks remark later : List Char}

theorem code_blanks_append (h : ∀ c ∈ blanks, Text.isBlank c = true) :
    code inComment (blanks ++ later) = code inComment later := by
  induction blanks with
  | nil => rfl
  | cons c rest ih =>
    have hblank : Text.isBlank c = true := h c List.mem_cons_self
    have hne : c ≠ '#' := ne_hash_of_isBlank hblank
    have hrest := ih fun d hd => h d (List.mem_cons_of_mem c hd)
    cases inComment with
    | true =>
      have hstill : (c != '#') = true := by simpa using hne
      rw [List.cons_append, code_comment_cons, hstill, hrest]
    | false => rw [List.cons_append, code_cons_of_ne hne, if_pos hblank, hrest]

theorem hash_mem_insert_iff (h : ∀ c ∈ blanks, Text.isBlank c = true) :
    '#' ∈ chars ++ (blanks ++ later) ↔ '#' ∈ chars ++ later := by
  have hnone : '#' ∉ blanks := fun hmem => ne_hash_of_isBlank (h '#' hmem) rfl
  simp only [List.mem_append, hnone, false_or]

/-- Blanks at any place of a text leave its code as it is. -/
theorem code_insert_blanks (h : ∀ c ∈ blanks, Text.isBlank c = true) :
    code inComment (chars ++ (blanks ++ later)) = code inComment (chars ++ later) := by
  -- Behind each character of the text the code goes on from the same state, so the induction is
  -- over what stands in front of the blanks, for both states at once.
  induction chars generalizing inComment with
  | nil => exact code_blanks_append h
  | cons c rest ih =>
    rw [List.cons_append, List.cons_append]
    cases inComment with
    | true => rw [code_comment_cons, code_comment_cons, ih]
    | false =>
      by_cases hc : c = '#'
      · subst hc
        simp only [code_hash_cons, hash_mem_insert_iff h, ih]
      · rw [code_cons_of_ne hc, code_cons_of_ne hc, ih]

theorem code_close (h : '#' ∉ remark) : code true (remark ++ '#' :: later) = code false later := by
  induction remark with
  | nil => rfl
  | cons c rest ih =>
    have hne : c ≠ '#' := fun heq => h (heq ▸ List.mem_cons_self)
    have hstill : (c != '#') = true := by simpa using hne
    rw [List.cons_append, code_comment_cons, hstill]
    exact ih (List.not_mem_of_not_mem_cons h)

theorem code_remark (h : '#' ∉ remark) :
    code false ('#' :: (remark ++ '#' :: later)) = code false later := by
  have hcloses : '#' ∈ remark ++ '#' :: later := by simp
  rw [code_hash_cons, if_pos hcloses, code_close h]

theorem strip_insert_blanks (s t : String) {w : String}
    (h : ∀ c ∈ w.toList, Text.isBlank c = true) : strip (s ++ w ++ t) = strip (s ++ t) := by
  rw [strip_eq_code, strip_eq_code, String.append_assoc, String.toList_append,
    String.toList_append, String.toList_append]
  exact code_insert_blanks h

theorem strip_insert_comment {s : String} (t : String) {c : String} (hc : '#' ∉ c.toList)
    (heven : s.toList.count '#' % 2 = 0) :
    strip (s ++ "#" ++ c ++ "#" ++ t) = strip (s ++ t) := by
  have hsplit : s ++ "#" ++ c ++ "#" ++ t = s ++ ("#" ++ c ++ "#" ++ t) := by
    simp only [String.append_assoc]
  have hremark : strip ("#" ++ c ++ "#" ++ t) = strip t := by
    have htext : ("#" ++ c ++ "#" ++ t).toList = '#' :: (c.toList ++ '#' :: t.toList) := by simp
    rw [strip_eq_code, strip_eq_code, htext]
    exact code_remark hc
  rw [hsplit, strip_append (Or.inl heven), hremark, strip_append (Or.inl heven)]

end Source

/-- Assembly sees of a source nothing but its code. -/
theorem assemble_eq_of_strip_eq {s t : String} (h : Source.strip s = Source.strip t) :
    assemble s = assemble t := by
  have hscan : Scan.ofSource s = Scan.ofSource t := by
    unfold Scan.ofSource
    rw [h]
  unfold assemble Assembly.ofSource
  rw [hscan]

/-- White space at any place of a source, and a comment at any place outside of comments, change
neither the program nor the error that assembly returns. -/
theorem assemble_ignores_layout (s t : String) :
    (∀ w : String, (∀ c ∈ w.toList, Text.isBlank c = true) →
      assemble (s ++ w ++ t) = assemble (s ++ t)) ∧
    (∀ c : String, '#' ∉ c.toList → s.toList.count '#' % 2 = 0 →
      assemble (s ++ "#" ++ c ++ "#" ++ t) = assemble (s ++ t)) := by
  constructor
  · intro w hw
    exact assemble_eq_of_strip_eq (Source.strip_insert_blanks s t hw)
  · intro c hc heven
    exact assemble_eq_of_strip_eq (Source.strip_insert_comment t hc heven)

theorem assemble_ignores_layout_inside_words :
    ((∀ c ∈ "\t\u3000\n".toList, Text.isBlank c = true) ∧
      assemble ("#one# giv #t" ++ "\t\u3000\n" ++ "wo# 7 oc #") =
        assemble ("#one# giv #t" ++ "wo# 7 oc #") ∧
      assemble ("#one# giv #t" ++ "wo# 7 oc #") =
        .error (.malformed (.unknownMnemonic "#" 6))) ∧
    ('#' ∉ "two\n".toList ∧ "#one# gi".toList.count '#' % 2 = 0 ∧
      assemble ("#one# gi" ++ "#" ++ "two\n" ++ "#" ++ "v1 jez'#'") =
        assemble ("#one# gi" ++ "v1 jez'#'")) := by
  have hblank : ∀ c ∈ "\t\u3000\n".toList, Text.isBlank c = true :=
    List.all_eq_true.mp (by decide)
  have hclosed : "#one# gi".toList.count '#' % 2 = 0 := by decide
  have hplain : '#' ∉ "two\n".toList := by decide
  refine ⟨⟨hblank, ?_, by decide +kernel⟩, hplain, hclosed, ?_⟩
  · exact (assemble_ignores_layout "#one# giv #t" "wo# 7 oc #").1 _ hblank
  · exact (assemble_ignores_layout "#one# gi" "v1 jez'#'").2 _ hplain hclosed

end AccumulatorMachine
