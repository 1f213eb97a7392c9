import AccumulatorMachine.Block.Scan
import AccumulatorMachine.Proofs.LongestWord
import Mathlib.Data.List.MinMax
import Mathlib.Data.List.Nodup

/-!
Reading a word of any table. The table may hold a word and a longer one that starts with it: then the
reader goes on behind the shorter word, and comes back to its end if the longer one is not there. Where no
word of the table stands, all characters up to the next terminator are passed.
-/
namespace AccumulatorMachine

namespace MnemonicTable

variable {α : Type}

/-- The words of the table differ, none is empty, and none holds a terminator. -/
structure Readable (table : MnemonicTable α) : Prop where
  distinct : (table.entries.map Prod.fst).Nodup
  nonempty : ∀ entry ∈ table.entries, entry.1 ≠ ""
  no_terminator : ∀ entry ∈ table.entries, ∀ c ∈ entry.1.toList, isTerminator c = false

/-- The entry of the longest word that starts the text. -/
structure IsLongest (table : MnemonicTable α) (entry : String × α) (text : List Char) : Prop where
  mem : entry ∈ table.entries
  starts : entry.1.toList <+: text
  longest : ∀ other ∈ table.entries, other.1.toList <+: text → other.1.length ≤ entry.1.length

variable {table : MnemonicTable α} {entry : String × α} {text : List Char}

theorem readable_of_all (hdistinct : (table.entries.map Prod.fst).Nodup)
    (hnonempty : ∀ entry ∈ table.entries, entry.1 ≠ "")
    (hall : (table.entries.all fun entry => entry.1.toList.all fun c => !isTerminator c) = true) :
    table.Readable := by
  refine ⟨hdistinct, hnonempty, fun entry hentry c hc => ?_⟩
  have hword := List.all_eq_true.mp hall entry hentry
  simpa using List.all_eq_true.mp hword c hc

theorem Readable.find?_eq (h : table.Readable) (hentry : entry ∈ table.entries) :
    table.find? entry.1.toList = some entry.2 := by
  have hsome : (table.entries.find? fun other => other.1.toList == entry.1.toList).isSome = true := by
    rw [List.find?_isSome]
    exact ⟨entry, hentry, by simp⟩
  obtain ⟨found, hfound⟩ := Option.isSome_iff_exists.mp hsome
  have hword : found.1.toList = entry.1.toList := by simpa using List.find?_some hfound
  have heq : found = entry := by
    apply List.inj_on_of_nodup_map h.distinct (List.mem_of_find?_eq_some hfound) hentry
    exact String.toList_injective hword
  unfold find?
  rw [hfound, heq, Option.map_some]

/-- Of the words that start a text, if there are any, one is the longest. -/
theorem exists_isLongest (h : ∃ entry ∈ table.entries, entry.1.toList <+: text) :
    ∃ entry, table.IsLongest entry text := by
  obtain ⟨first, hfirst, hstarts⟩ := h
  let matching := table.entries.filter fun entry => entry.1.toList.isPrefixOf text
  have hmem (entry : String × α) :
      entry ∈ matching ↔ entry ∈ table.entries ∧ entry.1.toList <+: text := by
    simp [matching]
  have hne : matching ≠ [] := List.ne_nil_of_mem ((hmem first).mpr ⟨hfirst, hstarts⟩)
  let size (entry : String × α) : Nat := entry.1.length
  obtain ⟨entry, hentry⟩ : ∃ entry, matching.argmax size = some entry := by
    apply Option.ne_none_iff_exists'.mp
    intro hnone
    exact hne (List.argmax_eq_none.mp hnone)
  obtain ⟨hknown, hword⟩ := (hmem entry).mp (List.argmax_mem hentry)
  refine ⟨entry, hknown, hword, fun other hother hprefix => ?_⟩
  have hle : size other ≤ size entry :=
    List.le_of_mem_argmax ((hmem other).mpr ⟨hother, hprefix⟩) hentry
  exact hle

end MnemonicTable

namespace Scan

variable {α : Type} {table : MnemonicTable α} {entry : String × α} {front text : List Char}

theorem best_readAhead_of_isLongest (h : table.Readable) (hentry : table.IsLongest entry text) :
    (readAhead table [] none (.between front text)).best = some ⟨entry.2, entry.1.length⟩ := by
  rw [← String.length_toList]
  apply best_readAhead_of_longest table [] front none text entry.1.toList entry.2
    (h.find?_eq hentry.mem) (h.no_terminator entry hentry.mem) hentry.starts
  · apply List.length_pos_iff.mpr
    rw [ne_eq, String.toList_eq_nil_iff]
    exact h.nonempty entry hentry.mem
  · intro other ⟨hsome, hother⟩
    obtain ⟨value, hvalue⟩ := Option.isSome_iff_exists.mp hsome
    have hle := hentry.longest _ (MnemonicTable.mem_entries_of_find? hvalue)
      (by rwa [String.toList_ofList])
    rwa [String.length_ofList, ← String.length_toList] at hle

theorem best_readAhead_eq_none (h : ∀ entry ∈ table.entries, ¬entry.1.toList <+: text) :
    (readAhead table [] none (.between front text)).best = none := by
  by_contra hsome
  obtain ⟨found, hfound⟩ := Option.ne_none_iff_exists'.mp hsome
  obtain ⟨word, hvalue, -, hword⟩ := exists_word_of_readAhead hfound
  apply h _ (MnemonicTable.mem_entries_of_find? hvalue)
  rwa [String.toList_ofList]

theorem readMnemonic_of_isLongest (h : table.Readable) (hentry : table.IsLongest entry text) :
    readMnemonic table (.between front text) =
      (.ok entry.2, .between (front ++ entry.1.toList) (text.drop entry.1.length)) := by
  obtain ⟨rest, rfl⟩ := hentry.starts
  rw [readMnemonic_of_best (best_readAhead_of_isLongest h hentry)]
  dsimp only
  rw [← String.length_toList, List.take_left]

theorem readMnemonic_of_none (h : ∀ entry ∈ table.entries, ¬entry.1.toList <+: text) :
    readMnemonic table (.between front text) =
      let run := text.takeWhile fun c => !isTerminator c
      (.error (.unknownMnemonic (String.ofList (if run.isEmpty then text.take 1 else run))
        front.length), .between (front ++ run) (text.drop run.length)) :=
  readMnemonic_of_best_none (best_readAhead_eq_none h)

/-- What is read ahead begins with the word, and goes on within the text. -/
theorem starts_readAhead (h : table.Readable) (hentry : table.IsLongest entry text)
    (front : List Char) :
    let ahead := readAhead table [] none (.between front text)
    entry.1.toList <+: ahead.taken ∧ ahead.taken <+: text := by
  obtain ⟨taken, rest, htext, htaken, -⟩ := readAhead_takes table [] front none text
  have hends := (readAhead_moves_nil table (.between front text)).2.2 _
    (best_readAhead_of_isLongest h hentry)
  rw [List.nil_append] at htaken
  have hwithin : taken <+: text := ⟨rest, htext.symm⟩
  dsimp only
  rw [htaken] at hends ⊢
  refine ⟨List.prefix_of_prefix_length_le hentry.starts hwithin ?_, hwithin⟩
  rw [String.length_toList]
  exact hends.2

/-- The reader takes the longest word of a table that starts the text, whatever follows it. It reads
ahead to find it, and goes back from there to the end of the word. If no word starts the text, the
reader fails where it stood, and passes all characters up to the first terminator. -/
theorem readMnemonic_takes_longest (table : MnemonicTable α) (h : table.Readable) (s : Scan) :
    ((∃ entry ∈ table.entries, entry.1.toList <+: s.remaining) →
      ∃ entry, table.IsLongest entry s.remaining) ∧
    (∀ entry, table.IsLongest entry s.remaining →
      let ahead := s.readAhead table [] none
      entry.1.toList <+: ahead.taken ∧ ahead.taken <+: s.remaining ∧
      ahead.scan.items = s.items ∧ ahead.scan.position = s.position + ahead.taken.length ∧
      s.readMnemonic table =
        (.ok entry.2, ahead.scan.back (ahead.taken.length - entry.1.length)) ∧
      (s.readMnemonic table).2.items = s.items ∧
      (s.readMnemonic table).2.position = s.position + entry.1.length) ∧
    ((∀ entry ∈ table.entries, ¬entry.1.toList <+: s.remaining) → ∃ run,
      LongestStart (fun run => ∀ c ∈ run, isTerminator c = false) run s.remaining ∧
      ((∀ c ∈ s.remaining.head?, isTerminator c = true) → run = []) ∧
      (s.readMnemonic table).1 = .error (.unknownMnemonic
        (String.ofList (if run.isEmpty then s.remaining.take 1 else run)) s.position) ∧
      (s.readMnemonic table).2.items = s.items ∧
      (s.readMnemonic table).2.position = s.position + run.length) := by
  obtain ⟨front, text, rfl⟩ := s.exists_between
  rw [Tape.remaining_between]
  refine ⟨MnemonicTable.exists_isLongest, fun entry hentry => ?_, fun hnone => ?_⟩
  · obtain ⟨hreaches, hposition, -⟩ := readAhead_moves_nil table (.between front text)
    obtain ⟨hword, hwithin⟩ := starts_readAhead h hentry front
    refine ⟨hword, hwithin, hreaches.1, hposition, ?_, ?_, ?_⟩
    · unfold readMnemonic
      dsimp only
      rw [best_readAhead_of_isLongest h hentry]
    · exact (position_readMnemonic table _).1.1
    · rw [readMnemonic_of_isLongest h hentry, Tape.position_between, List.length_append,
        String.length_toList]
      rfl
  · have hrun := longestStart_takeWhile (fun c => !isTerminator c) text
    simp only [Bool.not_eq_true'] at hrun
    refine ⟨_, hrun, fun hhead => ?_, ?_, ?_, ?_⟩
    · cases text with
      | nil => rfl
      | cons c rest =>
        have hc : isTerminator c = true := hhead c rfl
        simp [hc]
    · rw [readMnemonic_of_none hnone]
      rfl
    · exact (position_readMnemonic table _).1.1
    · rw [readMnemonic_of_none hnone]
      simp

end Scan

theorem Opcode.mnemonics_readable : Opcode.mnemonics.Readable :=
  MnemonicTable.readable_of_all (by decide) (by decide) (by decide)

/-- A table of words that start one another. -/
def nested : MnemonicTable Nat :=
  ⟨[("once", 4), ("o", 1), ("on", 2)]⟩

theorem nested_readable : nested.Readable :=
  MnemonicTable.readable_of_all (by decide) (by decide) (by decide)

theorem nested_takes_longest :
    (nested.Readable ∧ nested.IsLongest ("on", 2) "oncx*".toList ∧
      let s : Scan := .between "acc5giv".toList "oncx*".toList
      (s.readAhead nested [] none).taken = "onc".toList ∧
      (s.readAhead nested [] none).scan.position = 10 ∧
      (s.readMnemonic nested).1 = .ok 2 ∧ (s.readMnemonic nested).2.position = 9) ∧
    (Opcode.mnemonics.Readable ∧ Opcode.mnemonics.IsLongest ("push", .push) "pushpop".toList ∧
      let s : Scan := .between "acc5giv".toList "pushpop".toList
      (s.readMnemonic Opcode.mnemonics).1 = .ok .push ∧
      (s.readMnemonic Opcode.mnemonics).2.position = 11) ∧
    (∀ entry ∈ nested.entries, ¬entry.1.toList <+: "xon*".toList) ∧
    ∃ run, LongestStart (fun run => ∀ c ∈ run, isTerminator c = false) run "xon*".toList ∧
      (Scan.readMnemonic nested (.between "acc5giv".toList "xon*".toList)).2.position =
        7 + run.length := by
  obtain ⟨-, hnested, -⟩ := Scan.readMnemonic_takes_longest nested nested_readable
    (.between "acc5giv".toList "oncx*".toList)
  obtain ⟨-, hmnemonics, -⟩ := Scan.readMnemonic_takes_longest Opcode.mnemonics
    Opcode.mnemonics_readable (.between "acc5giv".toList "pushpop".toList)
  obtain ⟨-, -, hfails⟩ := Scan.readMnemonic_takes_longest nested nested_readable
    (.between "acc5giv".toList "xon*".toList)
  rw [Tape.remaining_between] at hnested hmnemonics hfails
  have hon : nested.IsLongest ("on", 2) "oncx*".toList := ⟨by decide, by decide, by decide⟩
  have hpush : Opcode.mnemonics.IsLongest ("push", .push) "pushpop".toList :=
    ⟨by decide, by decide, by decide⟩
  have hnone : ∀ entry ∈ nested.entries, ¬entry.1.toList <+: "xon*".toList := by decide
  obtain ⟨-, -, -, hahead, hread, -, hposition⟩ := hnested _ hon
  obtain ⟨-, -, -, -, hread', -, hposition'⟩ := hmnemonics _ hpush
  obtain ⟨run, hrun, -, -, -, hend⟩ := hfails hnone
  have htaken : (Scan.readAhead nested [] none
      (.between "acc5giv".toList "oncx*".toList)).taken = "onc".toList := by
    decide +kernel
  refine ⟨⟨nested_readable, hon, htaken, ?_, congrArg Prod.fst hread, hposition⟩,
    ⟨Opcode.mnemonics_readable, hpush, congrArg Prod.fst hread', hposition'⟩, hnone, run, hrun,
    hend⟩
  rw [htaken] at hahead
  exact hahead

end AccumulatorMachine
