import AccumulatorMachine.Block.Scan
import Mathlib.Data.List.Infix
import Mathlib.Data.List.TakeWhile

/-!
Reading ahead finds the longest word of a table that starts a text. Reading goes on while some word
continues what was read, so no longer word is missed; and a word that holds no terminator is never
cut short. What was read beyond the word found is part of the text still, and going back returns
there.
-/
namespace AccumulatorMachine

/-- The longest start of a text that has the given form. -/
structure LongestStart (form : List Char → Prop) (run text : List Char) : Prop where
  starts : run <+: text
  has_form : form run
  longest : ∀ other, other <+: text → form other → other.length ≤ run.length

theorem longestStart_takeWhile (p : Char → Bool) (text : List Char) :
    LongestStart (fun run => ∀ c ∈ run, p c = true) (text.takeWhile p) text := by
  refine ⟨List.takeWhile_prefix p, fun c hc => List.mem_takeWhile_imp hc, ?_⟩
  rintro other ⟨rest, rfl⟩ hall
  rw [List.takeWhile_append_of_pos hall, List.length_append]
  exact Nat.le_add_right _ _

theorem mem_insertOnce (c d : Char) (chars : List Char) :
    d ∈ insertOnce c chars ↔ d = c ∨ d ∈ chars := by
  induction chars with
  | nil => simp [insertOnce]
  | cons e rest ih =>
    unfold insertOnce
    split
    · exact List.mem_cons
    · split
      · rename_i hce
        simp [hce]
      · rw [List.mem_cons, ih, List.mem_cons]
        tauto

theorem mem_foldr_insertOnce (d : Char) (chars : List Char) :
    d ∈ chars.foldr insertOnce [] ↔ d ∈ chars := by
  induction chars with
  | nil => simp
  | cons c rest ih => rw [List.foldr_cons, mem_insertOnce, ih, List.mem_cons]

namespace MnemonicTable

variable {α : Type}

theorem mem_continuations (table : MnemonicTable α) (start : List Char) (next : Char) :
    next ∈ table.continuations start ↔
      ∃ entry ∈ table.entries, start ++ [next] <+: entry.1.toList := by
  rw [continuations, mem_foldr_insertOnce, List.mem_filterMap]
  apply exists_congr
  intro entry
  apply and_congr_right
  intro _
  constructor
  · intro h
    split at h
    · rename_i hstart
      obtain ⟨tail, htail⟩ := List.isPrefixOf_iff_prefix.mp hstart
      rw [← htail, List.drop_left] at h
      obtain ⟨later, rfl⟩ := List.head?_eq_some_iff.mp h
      exact ⟨later, by rw [← htail, List.append_assoc, List.singleton_append]⟩
    · cases h
  · rintro ⟨later, hlater⟩
    have hstart : start <+: entry.1.toList :=
      ⟨next :: later, by rw [← hlater, List.append_assoc, List.singleton_append]⟩
    rw [if_pos (List.isPrefixOf_iff_prefix.mpr hstart), ← hlater, List.append_assoc,
      List.drop_left]
    rfl

theorem mem_entries_of_find? {table : MnemonicTable α} {word : List Char} {value : α}
    (h : table.find? word = some value) : (String.ofList word, value) ∈ table.entries := by
  obtain ⟨entry, hentry, rfl⟩ := Option.map_eq_some_iff.mp h
  have hword : entry.1.toList = word := by simpa using List.find?_some hentry
  rw [← hword, String.ofList_toList]
  exact List.mem_of_find?_eq_some hentry

/-- The words of the table that start a text. -/
def Starts (table : MnemonicTable α) (word text : List Char) : Prop :=
  (table.find? word).isSome = true ∧ word <+: text

end MnemonicTable

namespace Scan

variable {α : Type} (table : MnemonicTable α) (taken front : List Char)
  (best : Option (MnemonicTable.Match α))

theorem readAhead_nil :
    readAhead table taken best (.between front []) = ⟨taken, best, .between front []⟩ := by
  rw [readAhead]
  split
  · rfl
  · rename_i hread
    rw [Tape.read_between_nil] at hread
    cases hread

theorem readAhead_cons (c : Char) (rest : List Char) :
    readAhead table taken best (.between front (c :: rest)) =
      if isTerminator c then ⟨taken, best, .between front (c :: rest)⟩
      else if rest.head?.any fun d => (table.continuations (taken ++ [c])).contains d then
        readAhead table (taken ++ [c]) (table.record (taken ++ [c]) best)
          (.between (front ++ [c]) rest)
      else ⟨taken ++ [c], table.record (taken ++ [c]) best, .between (front ++ [c]) rest⟩ := by
  rw [readAhead]
  split
  · rename_i hread
    rw [Tape.read_between_cons] at hread
    cases hread
  · rename_i hread
    rw [Tape.read_between_cons] at hread
    obtain ⟨rfl, rfl⟩ := Prod.mk.inj (Except.ok.inj hread)
    rw [Tape.peek?_between]

/-- Reading ahead takes characters of the text that are no terminators, at least one if there is one
to take. -/
theorem readAhead_takes (text : List Char) : ∃ more rest, text = more ++ rest ∧
    (readAhead table taken best (.between front text)).taken = taken ++ more ∧
    (readAhead table taken best (.between front text)).scan = .between (front ++ more) rest ∧
    (∀ c ∈ more, isTerminator c = false) ∧
    (more = [] → ∀ c ∈ text.head?, isTerminator c = true) := by
  induction text generalizing taken front best with
  | nil =>
    rw [readAhead_nil]
    exact ⟨[], [], rfl, by simp, by simp, by simp, by simp⟩
  | cons c rest ih =>
    rw [readAhead_cons]
    cases hc : isTerminator c with
    | true => exact ⟨[], c :: rest, rfl, by simp, by simp, by simp, by simpa using hc⟩
    | false =>
      rw [if_neg Bool.false_ne_true]
      split
      · obtain ⟨more, later, rfl, htaken, hscan, hmore, -⟩ :=
          ih (taken ++ [c]) (front ++ [c]) (table.record (taken ++ [c]) best)
        refine ⟨c :: more, later, rfl, ?_, ?_, ?_, by simp⟩
        · rw [htaken, List.append_assoc, List.singleton_append]
        · rw [hscan, List.append_assoc, List.singleton_append]
        · simpa [hc] using hmore
      · exact ⟨[c], rest, rfl, rfl, rfl, by simpa using hc, by simp⟩

/-- Past the last word that starts the text, reading ahead changes nothing. -/
theorem best_readAhead_of_no_longer (text : List Char)
    (hno : ∀ word, table.Starts word (taken ++ text) → word.length ≤ taken.length) :
    (readAhead table taken best (.between front text)).best = best := by
  induction text generalizing taken front with
  | nil => rw [readAhead_nil]
  | cons c rest ih =>
    have happ : taken ++ [c] ++ rest = taken ++ c :: rest := by simp
    have hnone : table.find? (taken ++ [c]) = none := by
      by_contra hsome
      have hlen := hno (taken ++ [c]) ⟨Option.isSome_iff_ne_none.mpr hsome, rest, happ⟩
      rw [List.length_append, List.length_singleton] at hlen
      omega
    have hrecord : table.record (taken ++ [c]) best = best := by
      rw [MnemonicTable.record, hnone, Option.map_none, Option.none_or]
    have hlater := ih (taken ++ [c]) (front ++ [c]) (fun word hword => by
      rw [happ] at hword
      have hlen := hno word hword
      rw [List.length_append]
      omega)
    rw [readAhead_cons, hrecord]
    split
    · rfl
    · split
      · exact hlater
      · rfl

/-- Reading ahead finds the longest word that starts the text, whatever follows that word. -/
theorem best_readAhead_of_longest (text word : List Char) (value : α)
    (hvalue : table.find? word = some value) (hstop : ∀ c ∈ word, isTerminator c = false)
    (hword : word <+: taken ++ text) (hlt : taken.length < word.length)
    (hmax : ∀ other, table.Starts other (taken ++ text) → other.length ≤ word.length) :
    (readAhead table taken best (.between front text)).best = some ⟨value, word.length⟩ := by
  induction text generalizing taken front best with
  | nil =>
    rw [List.append_nil] at hword
    have hle := hword.length_le
    omega
  | cons c rest ih =>
    have happ : taken ++ [c] ++ rest = taken ++ c :: rest := by simp
    rw [← happ] at hword hmax
    have hread : taken ++ [c] <+: word := by
      apply List.prefix_of_prefix_length_le (List.prefix_append _ rest) hword
      rw [List.length_append, List.length_singleton]
      omega
    have hc : c ∈ word := hread.subset (by simp)
    rw [readAhead_cons, if_neg (by simp [hstop c hc])]
    rcases Nat.eq_or_lt_of_le hread.length_le with hlen | hlen
    · have heq : taken ++ [c] = word := hread.eq_of_length hlen
      have hrecord : table.record word best = some ⟨value, word.length⟩ := by
        rw [MnemonicTable.record, hvalue, Option.map_some, Option.some_or]
      rw [heq, hrecord]
      split
      · apply best_readAhead_of_no_longer
        rwa [heq] at hmax
      · rfl
    · obtain ⟨later, hlater⟩ := hread
      obtain ⟨next, more, rfl⟩ : ∃ next more, later = next :: more := by
        apply List.exists_cons_of_ne_nil
        rintro rfl
        rw [← hlater, List.append_nil] at hlen
        exact Nat.lt_irrefl _ hlen
      have hmem : next ∈ table.continuations (taken ++ [c]) := by
        rw [MnemonicTable.mem_continuations]
        refine ⟨_, MnemonicTable.mem_entries_of_find? hvalue, more, ?_⟩
        rw [String.toList_ofList, ← hlater]
        simp
      have hhead : rest.head? = some next := by
        obtain ⟨tail, htail⟩ := hword
        rw [← hlater, List.append_assoc, List.append_cancel_left_eq] at htail
        rw [← htail]
        rfl
      rw [if_pos (by rw [hhead]; simpa using hmem)]
      exact ih (taken ++ [c]) (front ++ [c]) _ hword hlen hmax

/-- What reading ahead finds is a word of the table, and starts the text. -/
theorem best_readAhead_sound (text : List Char)
    (hbest : ∀ m ∈ best, ∃ word, table.find? word = some m.value ∧ m.length = word.length ∧
      word <+: taken ++ text) :
    ∀ m ∈ (readAhead table taken best (.between front text)).best, ∃ word,
      table.find? word = some m.value ∧ m.length = word.length ∧ word <+: taken ++ text := by
  induction text generalizing taken front best with
  | nil => rwa [readAhead_nil]
  | cons c rest ih =>
    have happ : taken ++ [c] ++ rest = taken ++ c :: rest := by simp
    rw [← happ] at hbest ⊢
    have hrecord : ∀ m ∈ table.record (taken ++ [c]) best, ∃ word,
        table.find? word = some m.value ∧ m.length = word.length ∧
          word <+: taken ++ [c] ++ rest := by
      intro m hm
      rcases MnemonicTable.mem_record hm with ⟨hfind, hlength⟩ | hm
      · exact ⟨taken ++ [c], hfind, hlength, List.prefix_append _ _⟩
      · exact hbest m hm
    rw [readAhead_cons]
    split
    · exact hbest
    · split
      · exact ih _ _ _ hrecord
      · exact hrecord

variable {table front} {text : List Char}

theorem exists_word_of_readAhead {m : MnemonicTable.Match α}
    (h : (readAhead table [] none (.between front text)).best = some m) :
    ∃ word, table.find? word = some m.value ∧ m.length = word.length ∧ word <+: text :=
  best_readAhead_sound table [] front none text (by simp) m h

/-- Going back from what was read ahead leaves the scan behind the word. -/
theorem readMnemonic_of_best {m : MnemonicTable.Match α}
    (h : (readAhead table [] none (.between front text)).best = some m) :
    readMnemonic table (.between front text) =
      (.ok m.value, .between (front ++ text.take m.length) (text.drop m.length)) := by
  obtain ⟨taken, rest, rfl, htaken, hscan, -, -⟩ := readAhead_takes table [] front none text
  have hends := (readAhead_moves_nil table (.between front (taken ++ rest))).2.2 m h
  rw [List.nil_append] at htaken
  rw [htaken] at hends
  have hback : (Tape.between (front ++ taken) rest).back (taken.length - m.length) =
      .between (front ++ taken.take m.length) (taken.drop m.length ++ rest) := by
    have hsplit := Tape.back_between (front ++ taken.take m.length) rest (taken.drop m.length)
    rwa [List.append_assoc, List.take_append_drop, List.length_drop] at hsplit
  unfold readMnemonic
  dsimp only
  rw [h]
  dsimp only
  rw [htaken, hscan, hback, List.take_append_of_le_length hends.2,
    List.drop_append_of_le_length hends.2]

/-- What was taken, with the rest of its run, is the run that the text starts with. -/
theorem unknown_readAhead (table : MnemonicTable α) (front text : List Char) :
    (readAhead table [] none (.between front text)).unknown =
      let run := text.takeWhile fun c => !isTerminator c
      (if run.isEmpty then text.take 1 else run,
        .between (front ++ run) (text.drop run.length)) := by
  obtain ⟨taken, rest, rfl, htaken, hscan, hno, hnil⟩ := readAhead_takes table [] front none text
  have hrun : (taken ++ rest).takeWhile (fun c => !isTerminator c) =
      taken ++ rest.takeWhile fun c => !isTerminator c :=
    List.takeWhile_append_of_pos (by simpa using hno)
  unfold Lookahead.unknown
  rw [htaken, hscan, hrun, List.nil_append]
  cases taken with
  | nil =>
    have hstop : rest.takeWhile (fun c => !isTerminator c) = [] := by
      cases rest with
      | nil => rfl
      | cons c later => exact List.takeWhile_cons_of_neg (by simpa using hnil rfl)
    rw [hstop]
    cases rest with
    | nil => simp
    | cons c later => simp
  | cons c more =>
    have hdrop : (c :: more ++ rest).drop
        (c :: more ++ rest.takeWhile fun d => !isTerminator d).length =
          rest.dropWhile fun d => !isTerminator d := by
      rw [List.length_append, List.drop_length_add_append]
      nth_rewrite 2 [← List.takeWhile_append_dropWhile (p := fun d => !isTerminator d) (l := rest)]
      exact List.drop_left
    rw [Tape.readWhile_between]
    dsimp only
    rw [hdrop, List.append_assoc]
    rfl

/-- Without a word, the run of characters that are no terminators is passed. -/
theorem readMnemonic_of_best_none
    (h : (readAhead table [] none (.between front text)).best = none) :
    readMnemonic table (.between front text) =
      let run := text.takeWhile fun c => !isTerminator c
      (.error (.unknownMnemonic (String.ofList (if run.isEmpty then text.take 1 else run))
        front.length), .between (front ++ run) (text.drop run.length)) := by
  unfold readMnemonic
  dsimp only
  rw [h, unknown_readAhead]
  rfl

end Scan

end AccumulatorMachine
