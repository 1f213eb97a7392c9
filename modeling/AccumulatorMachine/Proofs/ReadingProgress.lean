import AccumulatorMachine.Proofs.ErrorPlaces
import Mathlib.Logic.Function.Iterate

/-!
Reading goes forward. A block can be asked for again and again from one scan, after errors and at
the end too. The scan goes back from what was read ahead for a mnemonic, but never behind the place
where the call began; it never leaves the text, and takes at least two characters for every block.
So the blocks of a source are read in at most half as many calls as it has characters. A call leaves
the scan in place only at the end of the text and at a terminator that opens no tag.
-/
namespace AccumulatorMachine

/-- What asking for a block does, from a scan of the text. -/
structure Scan.Progresses (text : List Char) (s : Scan) : Prop where
  forward : s.position ≤ s.readBlock.2.position
  within : s.readBlock.2.position ≤ text.length
  same_text : s.readBlock.2.items = text.toArray
  moves_iff : s.position < s.readBlock.2.position ↔
    ∃ c ∈ s.peek?, c = ':' ∨ isTerminator c = false
  of_ok : ∀ block, s.readBlock.1 = .ok block →
    block.position = s.position ∧ s.position + 2 ≤ s.readBlock.2.position
  of_error : ∀ e, s.readBlock.1 = .error e → s.position ≤ e.position ∧ e.position ≤ text.length
  at_end : s.position = text.length →
    s.readBlock = (.error (.unknownMnemonic "" text.length), s)

/-- Where the scan stands when a block has been asked for so many times. -/
def Scan.afterCalls (s : Scan) (calls : Nat) : Scan :=
  (fun t => t.readBlock.2)^[calls] s

theorem two_le_length_mnemonic :
    ∀ entry ∈ Opcode.mnemonics.entries, 2 ≤ entry.1.toList.length := by
  decide

theorem BlockSpelling.two_le_length_text (b : BlockSpelling) : 2 ≤ b.text.length := by
  cases b with
  | tag n =>
    have hlength := n.length_text
    change 2 ≤ n.text.length
    omega
  | action word opcode known argument arity breakpoint separator =>
    have hword := two_le_length_mnemonic _ known
    rw [text, List.length_append]
    exact Nat.le_add_right_of_le hword

namespace Scan

variable {s t : Scan} {front text : List Char}

theorem reaches_afterCalls (s : Scan) (calls : Nat) : s.Reaches (s.afterCalls calls) := by
  induction calls with
  | zero => exact .refl s
  | succ calls ih =>
    unfold afterCalls at ih ⊢
    rw [Function.iterate_succ_apply']
    exact ih.trans (reaches_readBlock _)

theorem readBlock_advances {block : Block} (h : s.readBlock = (.ok block, t)) :
    block.position = s.position ∧ s.position + 2 ≤ t.position := by
  obtain ⟨front, text, rfl⟩ := s.exists_between
  obtain ⟨b, rest, rfl, -, rfl⟩ := readBlock_sound front h
  refine ⟨b.position_block front.length, ?_⟩
  rw [Tape.position_between, Tape.position_between, List.length_append]
  exact Nat.add_le_add_left b.two_le_length_text _

/-- At the end of the text, and at a terminator that opens no tag, nothing is passed. -/
theorem readBlock_of_stop (hcolon : text.head? ≠ some ':')
    (hstop : ∀ c ∈ text.head?, isTerminator c = true) : readBlock (.between front text) =
      (.error (.unknownMnemonic (String.ofList (text.take 1)) front.length),
        .between front text) := by
  have hbest : (readAhead Opcode.mnemonics [] none (.between front text)).best = none ∧
      text.takeWhile (fun c => !isTerminator c) = [] := by
    cases text with
    | nil =>
      rw [readAhead_nil]
      exact ⟨rfl, rfl⟩
    | cons c rest =>
      have hc : isTerminator c = true := hstop c rfl
      rw [readAhead_cons, if_pos hc]
      exact ⟨rfl, List.takeWhile_cons_of_neg (by simp [hc])⟩
  rw [readBlock_of_head_ne front hcolon, readMnemonic_of_best_none hbest.1, hbest.2]
  dsimp only [Reading.bind]
  rw [List.append_nil]
  rfl

theorem readBlock_error_between {e : BlockError}
    (h : readBlock (.between front text) = (.error e, t)) :
    front.length ≤ e.position ∧ e.position ≤ (front ++ text).length := by
  by_cases hnil : text = []
  · subst hnil
    rw [readBlock_of_stop (by simp) (by simp)] at h
    obtain rfl := Except.error.inj (Prod.mk.inj h).1
    rw [List.append_nil]
    exact ⟨Nat.le_refl _, Nat.le_refl _⟩
  · have hdescribes := describes_of_readBlock hnil h
    exact ⟨hdescribes.start_le, hdescribes.position_le⟩

/-- A mnemonic is passed, or what stands in its place: the scan does not go back to where it was. -/
theorem position_lt_readMnemonic {c : Char} (hc : isTerminator c = false) (rest : List Char) :
    front.length < (readMnemonic Opcode.mnemonics (.between front (c :: rest))).2.position := by
  cases hbest : (readAhead Opcode.mnemonics [] none (.between front (c :: rest))).best with
  | some found =>
    exact (position_readMnemonic Opcode.mnemonics (.between front (c :: rest))).2 found.value
      (by rw [readMnemonic_of_best hbest])
  | none =>
    rw [readMnemonic_of_best_none hbest]
    simp [hc]

theorem position_lt_readBlock_iff (s : Scan) : s.position < s.readBlock.2.position ↔
    ∃ c ∈ s.peek?, c = ':' ∨ isTerminator c = false := by
  obtain ⟨front, text, rfl⟩ := s.exists_between
  by_cases hcolon : text.head? = some ':'
  · have hpeek := (Tape.peek?_between front text).trans hcolon
    have hname := (readChar_reaches_readBlock hpeek).2
    exact iff_of_true (Nat.lt_of_lt_of_le (position_readChar hpeek) hname)
      ⟨':', hpeek, Or.inl rfl⟩
  · rw [Tape.peek?_between, Tape.position_between]
    by_cases hstop : ∀ c ∈ text.head?, isTerminator c = true
    · rw [readBlock_of_stop hcolon hstop]
      apply iff_of_false (Nat.lt_irrefl _)
      rintro ⟨c, hc, rfl | hgoes⟩
      · exact hcolon hc
      · rw [hstop c hc] at hgoes
        cases hgoes
    · push Not at hstop
      obtain ⟨c, hc, hgoes⟩ := hstop
      obtain ⟨rest, rfl⟩ := List.head?_eq_some_iff.mp hc
      have hgoes := Bool.eq_false_iff.mpr hgoes
      have hblock := (readMnemonic_reaches_readBlock (s := .between front (c :: rest))
        (by rwa [Tape.peek?_between])).2
      exact iff_of_true (Nat.lt_of_lt_of_le (position_lt_readMnemonic hgoes rest) hblock)
        ⟨c, hc, Or.inr hgoes⟩

theorem progresses_of_items_eq (h : s.items = text.toArray) : s.Progresses text := by
  have hitems : s.readBlock.2.items = text.toArray := s.reaches_readBlock.1.trans h
  constructor
  case forward => exact s.reaches_readBlock.2
  case within => simpa [hitems] using s.readBlock.2.position_le
  case same_text => exact hitems
  case moves_iff => exact s.position_lt_readBlock_iff
  case of_ok => exact fun block hblock => readBlock_advances (Prod.ext hblock rfl)
  case of_error =>
    intro e he
    obtain ⟨front, rest, rfl⟩ := s.exists_between
    obtain rfl : front ++ rest = text := congrArg Array.toList h
    exact readBlock_error_between (Prod.ext he rfl)
  case at_end =>
    intro hend
    obtain ⟨front, rest, rfl⟩ := s.exists_between
    obtain rfl : front ++ rest = text := congrArg Array.toList h
    obtain rfl : rest = [] := by simpa using hend
    rw [readBlock_of_stop (by simp) (by simp), List.append_nil]
    rfl

variable {blocks : List Block}

theorem Reads.eq_afterCalls (h : s.Reads blocks t) : t = s.afterCalls blocks.length := by
  induction h with
  | done s => rfl
  | block hblock hlater ih =>
    rw [ih, List.length_cons]
    unfold afterCalls
    rw [Function.iterate_succ_apply, hblock]

theorem Reads.position_le (h : s.Reads blocks t) :
    s.position + 2 * blocks.length ≤ t.position := by
  induction h with
  | done s => exact Nat.le_refl _
  | block hblock hlater ih =>
    have hadvances := (readBlock_advances hblock).2
    rw [List.length_cons]
    omega

/-- Reading all blocks goes to the end of the text, or up to the scan of the first error. -/
theorem exists_reads_readAll (s : Scan) : ∃ blocks last, s.Reads blocks last ∧
    (last.atEnd = true ∧ s.readAll = .ok blocks ∨
      last.atEnd = false ∧ ∃ e, last.readBlock.1 = .error e ∧ s.readAll = .error e) := by
  obtain ⟨last, hreads, herror, hend⟩ := s.reads_readMany
  refine ⟨_, last, hreads, ?_⟩
  rw [readAll_eq]
  cases hstop : s.readMany.2 with
  | none => exact Or.inl ⟨hend hstop, rfl⟩
  | some e =>
    obtain ⟨hgoes, he⟩ := herror e hstop
    exact Or.inr ⟨hgoes, e, he, rfl⟩

/-- However often a block is asked for, the scan goes forward within the stripped source: a block
takes two characters or more, an error is found between the place of the scan and the end, and at
the end nothing moves. All blocks are read in at most half as many calls as there are characters:
the calls go well one after the other, up to the end or up to the error that is returned. -/
theorem reading_progresses (source : String) :
    (∀ calls, ((ofSource source).afterCalls calls).Progresses (Source.strip source)) ∧
    ∃ blocks last, blocks.length ≤ (Source.strip source).length / 2 ∧
      (ofSource source).Reads blocks last ∧ last = (ofSource source).afterCalls blocks.length ∧
      (last.atEnd = true ∧ Block.ofSource source = .ok blocks ∨
        last.atEnd = false ∧
          ∃ e, last.readBlock.1 = .error e ∧ Block.ofSource source = .error e) := by
  have hitems (calls : Nat) := ((ofSource source).reaches_afterCalls calls).1
  refine ⟨fun calls => progresses_of_items_eq (hitems calls), ?_⟩
  obtain ⟨blocks, last, hreads, hends⟩ := (ofSource source).exists_reads_readAll
  refine ⟨blocks, last, ?_, hreads, hreads.eq_afterCalls, hends⟩
  have hlast : last.position ≤ (Source.strip source).length := by
    have hsize := hitems blocks.length
    rw [← hreads.eq_afterCalls] at hsize
    simpa [hsize, ofSource, Tape.ofArray] using last.position_le
  have hcount := hreads.position_le
  change 0 + 2 * blocks.length ≤ last.position at hcount
  omega

example : (List.range 4).map (fun calls => ((ofSource "pop pu").afterCalls calls).position) =
    [0, 3, 5, 5] := by
  decide +kernel

end Scan

end AccumulatorMachine
