import AccumulatorMachine.Source.Location
import AccumulatorMachine.Proofs.Stripping
import Mathlib.Data.List.TakeWhile

/-!
What is taken away from a text, said by a pattern alone: a comment or a run of white space, looked for
from left to right, each match taken as long as it can be and the next one looked for behind it. The
mask of a text is true exactly where no match is, and the spans that are looked for one by one are
these matches, in bytes.
-/
namespace AccumulatorMachine.Source

/-- What is taken away in one piece: a comment with both its ends, or a run of white space. -/
inductive Removable : List Char → Prop
  | comment {body : List Char} (inner : '#' ∉ body) : Removable ('#' :: (body ++ ['#']))
  | blanks {run : List Char} (nonempty : run ≠ []) (blank : ∀ c ∈ run, Text.isBlank c = true) :
    Removable run

/-- The longest removable piece that a text starts with. -/
structure LongestRemovable (piece chars : List Char) : Prop where
  removable : Removable piece
  starts : piece <+: chars
  longest : ∀ other, Removable other → other <+: chars → other.length ≤ piece.length

def Span.contains (span : Span) (offset : Nat) : Bool :=
  decide (span.start ≤ offset ∧ offset < span.stop)

theorem Span.not_contains_of_stop_le {span : Span} {offset : Nat} (h : span.stop ≤ offset) :
    span.contains offset = false :=
  decide_eq_false fun hin => Nat.not_lt_of_le h hin.2

theorem Span.not_contains_of_lt_start {span : Span} {offset : Nat} (h : offset < span.start) :
    span.contains offset = false :=
  decide_eq_false fun hin => Nat.not_lt_of_le hin.1 h

/-- The spans of the leftmost matches that do not overlap, in a text that begins at `offset`. -/
inductive Removals : Nat → List Char → List Span → Prop
  | nil {offset : Nat} : Removals offset [] []
  | keep {offset : Nat} {c : Char} {rest : List Char} {spans : List Span}
    (none : ∀ piece, Removable piece → ¬piece <+: c :: rest)
    (later : Removals (offset + 1) rest spans) : Removals offset (c :: rest) spans
  | remove {offset : Nat} {piece chars : List Char} {spans : List Span}
    (longest : LongestRemovable piece chars)
    (later : Removals (offset + piece.length) (chars.drop piece.length) spans) :
    Removals offset chars (⟨offset, offset + piece.length⟩ :: spans)

theorem Removable.length_pos {piece : List Char} (h : Removable piece) : 0 < piece.length := by
  cases h with
  | comment _ => exact Nat.succ_pos _
  | blanks nonempty _ => exact List.length_pos_iff.mpr nonempty

theorem longestRemovable_of_comment? {chars piece : List Char} (h : comment? chars = some piece) :
    LongestRemovable piece chars := by
  unfold comment? at h
  split at h
  · cases h
  split at h
  · rename_i rest hopens
    obtain ⟨rfl, hcloses⟩ := hopens
    obtain ⟨body, later, rfl, hbody⟩ :=
      List.eq_append_cons_of_mem (List.contains_iff_mem.mp hcloses)
    have hinner (inner : List Char) (hinner : '#' ∉ inner) (rest : List Char) :
        (inner ++ '#' :: rest).takeWhile (· != '#') = inner := by
      have hall : ∀ c ∈ inner, (c != '#') = true := by
        intro c hc
        exact bne_iff_ne.mpr fun heq => hinner (heq ▸ hc)
      rw [List.takeWhile_append_of_pos hall]
      simp
    rw [hinner body hbody] at h
    obtain rfl := Option.some.inj h
    refine ⟨.comment hbody, ⟨later, by simp⟩, fun other hother hstarts => ?_⟩
    cases hother with
    | comment inner =>
      rename_i inside
      obtain ⟨rest, hrest⟩ := (List.prefix_cons_inj _).mp hstarts
      have hsame : inside = body := by
        rw [← hinner inside inner rest, ← hinner body hbody later, ← hrest, List.append_assoc]
        rfl
      rw [hsame]
    | blanks nonempty blank =>
      obtain ⟨c, run, rfl⟩ := List.exists_cons_of_ne_nil nonempty
      obtain rfl : c = '#' := (List.cons_prefix_cons.mp hstarts).1
      exact absurd rfl (ne_hash_of_isBlank (blank '#' List.mem_cons_self))
  · cases h

theorem longestRemovable_of_blanks? {chars piece : List Char} (h : blanks? chars = some piece) :
    LongestRemovable piece chars := by
  unfold blanks? at h
  dsimp only at h
  split at h
  · cases h
  · rename_i hne
    obtain rfl := Option.some.inj h
    have hstart := List.takeWhile_prefix (l := chars) Text.isBlank
    refine ⟨.blanks (by simpa using hne) fun c hc => List.mem_takeWhile_imp hc, hstart,
      fun other hother hstarts => ?_⟩
    cases hother with
    | comment inner =>
      obtain ⟨rest, rfl⟩ := hstarts
      have hno : ¬Text.isBlank '#' = true := fun hblank => ne_hash_of_isBlank hblank rfl
      rw [List.cons_append, List.takeWhile_cons_of_neg hno] at hne
      exact absurd rfl hne
    | blanks nonempty blank =>
      obtain ⟨rest, rfl⟩ := hstarts
      rw [List.takeWhile_append_of_pos blank, List.length_append]
      exact Nat.le_add_right _ _

theorem longestRemovable_of_piece? {chars piece : List Char} (h : piece? chars = some piece) :
    LongestRemovable piece chars := by
  rcases Option.or_eq_some_iff.mp h with hcomment | ⟨-, hblanks⟩
  · exact longestRemovable_of_comment? hcomment
  · exact longestRemovable_of_blanks? hblanks

theorem not_removable_of_piece? {chars : List Char} (h : piece? chars = none) :
    ∀ piece, Removable piece → ¬piece <+: chars := by
  obtain ⟨hcomment, hblanks⟩ := Option.or_eq_none_iff.mp h
  rintro piece hpiece ⟨rest, rfl⟩
  cases hpiece with
  | comment inner => simp [comment?] at hcomment
  | blanks nonempty blank =>
    unfold blanks? at hblanks
    rw [List.takeWhile_append_of_pos blank] at hblanks
    simp [nonempty] at hblanks

theorem exists_removals (offset : Nat) (chars : List Char) :
    ∃ spans, Removals offset chars spans := by
  induction hlen : chars.length using Nat.strongRecOn generalizing offset chars with
  | ind n ih =>
    cases hpiece : piece? chars with
    | some piece =>
      have hpos := length_pos_of_piece? hpiece
      have hlongest := longestRemovable_of_piece? hpiece
      have hle : piece.length ≤ chars.length := hlongest.starts.length_le
      have hshorter : (chars.drop piece.length).length < n := by
        rw [List.length_drop]
        omega
      obtain ⟨spans, hspans⟩ := ih _ hshorter (offset + piece.length) _ rfl
      exact ⟨_, .remove hlongest hspans⟩
    | none =>
      cases chars with
      | nil => exact ⟨[], .nil⟩
      | cons c rest =>
        have hshorter : rest.length < n := by
          rw [← hlen]
          exact Nat.lt_succ_self _
        obtain ⟨spans, hspans⟩ := ih _ hshorter (offset + 1) rest rfl
        exact ⟨spans, .keep (not_removable_of_piece? hpiece) hspans⟩

theorem LongestRemovable.unique {piece piece' chars : List Char}
    (h : LongestRemovable piece chars) (h' : LongestRemovable piece' chars) : piece = piece' := by
  have hle : piece.length ≤ piece'.length := h'.longest piece h.removable h.starts
  have hge : piece'.length ≤ piece.length := h.longest piece' h'.removable h'.starts
  have hprefix : piece <+: piece' := List.prefix_of_prefix_length_le h.starts h'.starts hle
  exact hprefix.eq_of_length (Nat.le_antisymm hle hge)

theorem LongestRemovable.ne_nil {piece chars : List Char} (h : LongestRemovable piece chars) :
    chars ≠ [] := by
  rintro rfl
  have hle := h.starts.length_le
  have hpos := h.removable.length_pos
  rw [List.length_nil] at hle
  omega

theorem Removals.unique {offset : Nat} {chars : List Char} {spans spans' : List Span}
    (h : Removals offset chars spans) (h' : Removals offset chars spans') : spans = spans' := by
  induction h generalizing spans' with
  | nil =>
    cases h' with
    | nil => rfl
    | remove longest _ => exact absurd rfl longest.ne_nil
  | keep none _ ih =>
    cases h' with
    | keep _ later' => exact ih later'
    | remove longest _ => exact absurd longest.starts (none _ longest.removable)
  | remove longest _ ih =>
    cases h' with
    | nil => exact absurd rfl longest.ne_nil
    | keep none _ => exact absurd longest.starts (none _ longest.removable)
    | remove longest' later' =>
      obtain rfl := longest.unique longest'
      rw [ih later']

theorem mask_blanks {run : List Char} (hblank : ∀ c ∈ run, Text.isBlank c = true)
    (rest : List Char) :
    mask false (run ++ rest) = List.replicate run.length false ++ mask false rest := by
  induction run with
  | nil => rfl
  | cons c run ih =>
    have hc : Text.isBlank c = true := hblank c List.mem_cons_self
    have hne : c ≠ '#' := ne_hash_of_isBlank hc
    rw [List.cons_append, mask, if_neg Bool.false_ne_true, if_neg hne, hc,
      ih fun d hd => hblank d (List.mem_cons_of_mem _ hd)]
    rfl

theorem mask_inside {body : List Char} (hbody : '#' ∉ body) (rest : List Char) :
    mask true (body ++ '#' :: rest) = List.replicate (body.length + 1) false ++ mask false rest := by
  induction body with
  | nil => rfl
  | cons c body ih =>
    have hne : c ≠ '#' := fun heq => hbody (heq ▸ List.mem_cons_self)
    have hopen : (c != '#') = true := by simpa using hne
    rw [List.cons_append, mask, if_pos rfl, hopen,
      ih fun hmem => hbody (List.mem_cons_of_mem _ hmem)]
    rfl

theorem Removable.mask_append {piece : List Char} (h : Removable piece) (rest : List Char) :
    mask false (piece ++ rest) = List.replicate piece.length false ++ mask false rest := by
  cases h with
  | blanks _ blank => exact mask_blanks blank rest
  | comment inner =>
    rename_i body
    have hclosed : (body ++ '#' :: rest).contains '#' = true := by simp
    have hsplit : '#' :: (body ++ ['#']) ++ rest = '#' :: (body ++ '#' :: rest) := by simp
    rw [hsplit, mask, if_neg Bool.false_ne_true, if_pos rfl, if_pos hclosed,
      mask_inside inner rest, List.length_cons, List.length_append, List.length_singleton]
    rfl

/-- A character that starts no removable piece is code. -/
theorem mask_of_not_removable {c : Char} {rest : List Char}
    (hnone : ∀ piece, Removable piece → ¬piece <+: c :: rest) :
    mask false (c :: rest) = true :: mask false rest := by
  rw [mask, if_neg Bool.false_ne_true]
  by_cases hc : c = '#'
  · subst hc
    have hopen : '#' ∉ rest := by
      intro hmem
      obtain ⟨body, later, rfl, hbody⟩ := List.eq_append_cons_of_mem hmem
      refine hnone _ (.comment hbody) ⟨later, ?_⟩
      simp
    rw [if_pos rfl, if_neg (by simpa using hopen)]
  · have hblank : Text.isBlank c = false := by
      apply Bool.eq_false_iff.mpr
      intro hblank
      refine hnone [c] (.blanks (List.cons_ne_nil _ _) fun d hd => ?_) ⟨rest, rfl⟩
      rwa [List.mem_singleton.mp hd]
    rw [if_neg hc, hblank]
    rfl

/-- No span takes the character at the offset away. -/
def isKept (spans : List Span) (offset : Nat) : Bool :=
  spans.all fun span => !span.contains offset

theorem isKept_cons (span : Span) (spans : List Span) (offset : Nat) :
    isKept (span :: spans) offset = (!span.contains offset && isKept spans offset) :=
  rfl

theorem isKept_iff (spans : List Span) (offset : Nat) :
    isKept spans offset = true ↔ ∀ span ∈ spans, span.contains offset = false := by
  simp [isKept]

theorem Removals.le_start {offset : Nat} {chars : List Char} {spans : List Span}
    (h : Removals offset chars spans) : ∀ span ∈ spans, offset ≤ span.start := by
  induction h with
  | nil => exact fun _ hno => nomatch hno
  | keep _ _ ih =>
    intro span hspan
    exact Nat.le_of_succ_le (ih span hspan)
  | remove longest _ ih =>
    intro span hspan
    rcases List.mem_cons.mp hspan with rfl | hspan
    · exact Nat.le_refl _
    · exact Nat.le_trans (Nat.le_add_right _ _) (ih span hspan)

/-- The mask is true exactly where no match is. -/
theorem Removals.mask_eq {offset : Nat} {chars : List Char} {spans : List Span}
    (h : Removals offset chars spans) :
    mask false chars = (List.range' offset chars.length).map (isKept spans) := by
  induction h with
  | nil => rfl
  | keep none later ih =>
    rename_i offset c rest spans
    have hfirst : isKept spans offset = true := by
      rw [isKept_iff]
      exact fun span hspan => Span.not_contains_of_lt_start (later.le_start span hspan)
    rw [mask_of_not_removable none, ih, List.length_cons, List.range'_succ, List.map_cons, hfirst]
  | remove longest later ih =>
    rename_i offset piece chars spans
    obtain ⟨rest, rfl⟩ := longest.starts
    rw [List.drop_left] at later ih
    have hgone : (List.range' offset piece.length).map
        (isKept (⟨offset, offset + piece.length⟩ :: spans)) =
          List.replicate piece.length false := by
      rw [List.eq_replicate_iff]
      refine ⟨by rw [List.length_map, List.length_range'], fun kept hkept => ?_⟩
      obtain ⟨j, hj, rfl⟩ := List.mem_map.mp hkept
      have hin : Span.contains ⟨offset, offset + piece.length⟩ j = true :=
        decide_eq_true (List.mem_range'_1.mp hj)
      rw [isKept_cons, hin]
      rfl
    have hrest : (List.range' (offset + piece.length) rest.length).map
        (isKept (⟨offset, offset + piece.length⟩ :: spans)) = mask false rest := by
      rw [ih]
      apply List.map_congr_left
      intro j hj
      have hle : offset + piece.length ≤ j := (List.mem_range'_1.mp hj).1
      have hout : Span.contains ⟨offset, offset + piece.length⟩ j = false :=
        Span.not_contains_of_stop_le hle
      rw [isKept_cons, hout]
      rfl
    rw [longest.removable.mask_append, List.length_append, ← List.range'_append_1, List.map_append,
      hgone, hrest]

/-- No span begins before the end of an earlier one. -/
def Apart (spans : List Span) : Prop :=
  spans.Pairwise fun a b => a.stop ≤ b.start

/-- Spans of a text of the given length, in ascending order. -/
structure Ordered (length : Nat) (spans : List Span) : Prop where
  within : ∀ span ∈ spans, span.start ≤ span.stop ∧ span.stop ≤ length
  apart : Apart spans

theorem Removals.ordered {offset : Nat} {chars : List Char} {spans : List Span}
    (h : Removals offset chars spans) : Ordered (offset + chars.length) spans := by
  induction h with
  | nil => exact ⟨by simp, List.Pairwise.nil⟩
  | keep _ _ ih =>
    refine ⟨fun span hspan => ?_, ih.apart⟩
    have hwithin := ih.within span hspan
    rw [List.length_cons]
    omega
  | remove longest later ih =>
    have hle := longest.starts.length_le
    have hwithin := ih.within
    rw [List.length_drop] at hwithin
    refine ⟨fun span hspan => ?_, List.pairwise_cons.mpr ⟨later.le_start, ih.apart⟩⟩
    rcases List.mem_cons.mp hspan with rfl | hspan
    · dsimp only
      omega
    · have hspan := hwithin span hspan
      omega

theorem byteSize_append (chars more : List Char) :
    byteSize (chars ++ more) = byteSize chars + byteSize more := by
  unfold byteSize
  rw [String.ofList_append, String.utf8ByteSize_append]

theorem byteSize_singleton (c : Char) : byteSize [c] = c.utf8Size :=
  String.utf8ByteSize_singleton

theorem byteSize_pos {chars : List Char} (h : chars ≠ []) : 0 < byteSize chars := by
  obtain ⟨c, rest, rfl⟩ := List.exists_cons_of_ne_nil h
  have hc := c.utf8Size_pos
  rw [← List.singleton_append, byteSize_append, byteSize_singleton]
  omega

/-- The offset in bytes of the character that has the given offset in characters. -/
def byteOffset (chars : List Char) (offset : Nat) : Nat :=
  byteSize (chars.take offset)

theorem byteOffset_lt {chars : List Char} {j k : Nat} (hlt : j < k) (hk : k ≤ chars.length) :
    byteOffset chars j < byteOffset chars k := by
  obtain ⟨more, hmore⟩ := List.take_prefix_take_left (l := chars) hlt.le
  have hlength := congrArg List.length hmore
  rw [List.length_append, List.length_take_of_le (hlt.le.trans hk), List.length_take_of_le hk]
    at hlength
  have hne : more ≠ [] := List.ne_nil_of_length_pos (by omega)
  unfold byteOffset
  rw [← hmore, byteSize_append]
  exact Nat.lt_add_of_pos_right (byteSize_pos hne)

theorem byteOffset_le_iff {chars : List Char} {j k : Nat} (hj : j ≤ chars.length)
    (hk : k ≤ chars.length) : byteOffset chars j ≤ byteOffset chars k ↔ j ≤ k := by
  constructor
  · intro hle
    by_contra hlt
    exact Nat.not_lt_of_le hle (byteOffset_lt (Nat.lt_of_not_le hlt) hj)
  · intro hle
    rcases Nat.eq_or_lt_of_le hle with rfl | hlt
    · exact Nat.le_refl _
    · exact (byteOffset_lt hlt hk).le

/-- A span of characters as a span of bytes. -/
def Span.inBytes (chars : List Char) (span : Span) : Span :=
  ⟨byteOffset chars span.start, byteOffset chars span.stop⟩

theorem Ordered.inBytes {chars : List Char} {spans : List Span}
    (h : Ordered chars.length spans) : Apart (spans.map (Span.inBytes chars)) := by
  unfold Apart
  rw [List.pairwise_map]
  refine List.Pairwise.imp_of_mem ?_ h.apart
  intro a b ha hb hapart
  have hwithin := h.within b hb
  exact (byteOffset_le_iff (h.within a ha).2 (hwithin.1.trans hwithin.2)).mpr hapart

theorem Ordered.isKept_inBytes {chars : List Char} {spans : List Span}
    (h : Ordered chars.length spans) {j : Nat} (hj : j ≤ chars.length) :
    isKept (spans.map (Span.inBytes chars)) (byteOffset chars j) = isKept spans j := by
  rw [Bool.eq_iff_iff, isKept_iff, isKept_iff, List.forall_mem_map]
  apply forall₂_congr
  intro span hspan
  obtain ⟨hstart, hstop⟩ := h.within span hspan
  have hbegins := byteOffset_le_iff (hstart.trans hstop) hj
  have hends := byteOffset_le_iff hstop hj
  have hsame : (span.inBytes chars).contains (byteOffset chars j) = span.contains j := by
    apply decide_eq_decide.mpr
    unfold Span.inBytes
    dsimp only
    rw [hbegins, ← Nat.not_le, ← Nat.not_le, hends]
  rw [hsame]

theorem removals_of_piece? {chars piece : List Char} (offset : Nat)
    (h : piece? chars = some piece) : removals offset chars =
      ⟨offset, offset + byteSize piece⟩ ::
        removals (offset + byteSize piece) (chars.drop piece.length) := by
  cases chars with
  | nil => cases h
  | cons c rest =>
    rw [removals]
    split
    · rename_i found hfound
      obtain rfl := Option.some.inj (hfound.symm.trans h)
      rfl
    · rename_i hnone
      cases hnone.symm.trans h

theorem removals_of_piece?_none {c : Char} {rest : List Char} (offset : Nat)
    (h : piece? (c :: rest) = none) :
    removals offset (c :: rest) = removals (offset + c.utf8Size) rest := by
  rw [removals]
  split
  · rename_i hfound
    cases hfound.symm.trans h
  · rfl

theorem LongestRemovable.piece?_eq {piece chars : List Char} (h : LongestRemovable piece chars) :
    piece? chars = some piece := by
  cases hpiece : piece? chars with
  | some found => rw [h.unique (longestRemovable_of_piece? hpiece)]
  | none => exact absurd h.starts (not_removable_of_piece? hpiece piece h.removable)

theorem byteOffset_length_append (front rest : List Char) :
    byteOffset (front ++ rest) front.length = byteSize front := by
  unfold byteOffset
  rw [List.take_left]

/-- What the line map looks for are the matches of the pattern, in bytes. -/
theorem Removals.removals_eq {offset : Nat} {chars : List Char} {spans : List Span}
    (h : Removals offset chars spans) (front : List Char) (hoffset : offset = front.length) :
    removals (byteSize front) chars = spans.map (Span.inBytes (front ++ chars)) := by
  induction h generalizing front with
  | nil =>
    rw [removals]
    rfl
  | keep none later ih =>
    rename_i offset c rest spans
    have hpiece : piece? (c :: rest) = .none := by
      rw [Option.eq_none_iff_forall_ne_some]
      intro piece hpiece
      have hlongest := longestRemovable_of_piece? hpiece
      exact none piece hlongest.removable hlongest.starts
    have hlater := ih (front ++ [c]) (by rw [hoffset, List.length_append, List.length_singleton])
    rw [byteSize_append, byteSize_singleton, List.append_assoc, List.singleton_append] at hlater
    rw [removals_of_piece?_none _ hpiece, hlater]
  | remove longest later ih =>
    rename_i offset piece chars spans
    have hpiece := longest.piece?_eq
    obtain ⟨rest, rfl⟩ := longest.starts
    have hlater := ih (front ++ piece) (by rw [hoffset, List.length_append])
    rw [List.drop_left, byteSize_append, List.append_assoc] at hlater
    have hspan : Span.inBytes (front ++ (piece ++ rest)) ⟨offset, offset + piece.length⟩ =
        ⟨byteSize front, byteSize front + byteSize piece⟩ := by
      have hstop := byteOffset_length_append (front ++ piece) rest
      rw [List.length_append, List.append_assoc, byteSize_append] at hstop
      unfold Span.inBytes
      rw [hoffset, byteOffset_length_append, hstop]
    rw [removals_of_piece? _ hpiece, List.drop_left, hlater, List.map_cons, hspan]

theorem select_map {α β : Type} (f : α → β) (items : List α) (mask : List Bool) :
    select (items.map f) mask = (select items mask).map f := by
  induction items generalizing mask with
  | nil => rfl
  | cons item items ih =>
    cases mask with
    | nil => rfl
    | cons kept mask =>
      rw [List.map_cons, select_cons, select_cons, ih]
      cases kept with
      | true => rfl
      | false => rfl

theorem select_map_self {α : Type} (q : α → Bool) (items : List α) :
    select items (items.map q) = items.filter q := by
  induction items with
  | nil => rfl
  | cons item items ih => rw [List.map_cons, select_cons, ih, List.filter_cons]

theorem map_getElem?_range {α : Type} (items : List α) :
    (List.range items.length).map (items[·]?) = items.map some := by
  apply List.ext_getElem
  · simp
  · intro index hleft hright
    simp

end AccumulatorMachine.Source
