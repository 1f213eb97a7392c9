import AccumulatorMachine.Proofs.Concatenation

/-!
Blocks with a `;` between each two of them. Behind an action the `;` belongs to the spelling of the
action and changes nothing. Behind a tag definition it belongs to no block: it is read as the start
of the next one, and rejected.
-/
namespace AccumulatorMachine

namespace BlockSpelling

/-- A `;` is written as part of the block. -/
def hasSeparator : BlockSpelling → Bool
  | .tag _ => false
  | .action _ _ _ _ _ _ separator => separator

/-- The block with a `;` behind it. Only an action can have one. -/
def separated : BlockSpelling → BlockSpelling
  | .tag n => .tag n
  | .action word opcode known argument arity breakpoint _ =>
    .action word opcode known argument arity breakpoint true

variable {b : BlockSpelling}

theorem block_separated (b : BlockSpelling) (position : Nat) :
    b.separated.block position = b.block position := by
  cases b with
  | tag n => rfl
  | action word opcode known argument arity breakpoint separator => rfl

theorem text_separated (haction : b.isAction = true) (hbare : b.hasSeparator = false) :
    b.separated.text = b.text ++ [';'] := by
  cases b with
  | tag n => cases haction
  | action word opcode known argument arity breakpoint separator =>
    obtain rfl : separator = false := hbare
    simp [separated, text, tailText, optionalChar]

theorem isAction_separated (b : BlockSpelling) : b.separated.isAction = b.isAction := by
  cases b with
  | tag n => rfl
  | action word opcode known argument arity breakpoint separator => rfl

end BlockSpelling

namespace Spelling

variable {front back spelling : Spelling}

/-- The text of the blocks with one `;` between each two of them. -/
def separatedText (spelling : Spelling) : List Char :=
  [';'].intercalate (spelling.map BlockSpelling.text)

theorem separatedText_nil : separatedText [] = text [] :=
  rfl

theorem separatedText_singleton (b : BlockSpelling) : separatedText [b] = b.text :=
  List.intercalate_singleton

theorem separatedText_cons (b : BlockSpelling) (hne : back ≠ []) :
    separatedText (b :: back) = b.text ++ ';' :: separatedText back := by
  obtain ⟨next, rest, rfl⟩ := List.exists_cons_of_ne_nil hne
  unfold separatedText
  rw [List.map_cons, List.map_cons, List.intercalate_cons_cons, List.append_assoc]
  rfl

/-- Behind actions the separators belong to the blocks. -/
theorem separatedText_append (hactions : ∀ b ∈ front, b.isAction = true)
    (hbare : ∀ b ∈ front, b.hasSeparator = false) (hne : back ≠ []) :
    separatedText (front ++ back) =
      text (front.map BlockSpelling.separated) ++ separatedText back := by
  induction front with
  | nil => rfl
  | cons b rest ih =>
    rw [List.forall_mem_cons] at hactions hbare
    rw [List.cons_append, separatedText_cons b (List.append_ne_nil_of_right_ne_nil rest hne),
      ih hactions.2 hbare.2, List.map_cons, text_cons,
      BlockSpelling.text_separated hactions.1 hbare.1]
    simp

/-- Blocks that are not all actions have a first tag definition. -/
theorem exists_first_tag (h : ¬∀ b ∈ spelling, b.isAction = true) :
    ∃ front n back, spelling = front ++ .tag n :: back ∧ ∀ b ∈ front, b.isAction = true := by
  induction spelling with
  | nil => exact absurd (by simp) h
  | cons b rest ih =>
    cases b with
    | tag n => exact ⟨[], n, rest, rfl, by simp⟩
    | action word opcode known argument arity breakpoint separator =>
      have hrest : ¬∀ b ∈ rest, b.isAction = true := by
        intro hall
        exact h (List.forall_mem_cons.mpr ⟨rfl, hall⟩)
      obtain ⟨front, n, back, rfl, hfront⟩ := ih hrest
      exact ⟨_ :: front, n, back, rfl, List.forall_mem_cons.mpr ⟨rfl, hfront⟩⟩

end Spelling

/-- Sources that spell the same blocks assemble to the same program. -/
theorem assemble_respelled {source other : String} {spelling respelled : Spelling} {p : Program}
    (hsource : Source.strip source = spelling.text) (hother : Source.strip other = respelled.text)
    (hsame : List.Forall₂ (fun b b' => ∀ position, b.block position = b'.block position)
      spelling respelled) (hp : assemble source = .ok p) : assemble other = .ok p := by
  obtain ⟨found, hfound, hall, hindexes⟩ := assemble_eq_ok_iff.mp hp
  obtain rfl : found = spelling := Spelling.text_inj (hfound.symm.trans hsource)
  exact assemble_eq_ok_iff.mpr ⟨respelled, hother, Becomes.respell hsame hall 0, hindexes⟩

theorem no_mnemonic_starts_with_semicolon :
    ∀ entry ∈ Opcode.mnemonics.entries, entry.1.toList.head? ≠ some ';' := by
  decide

/-- A `;` behind the first tag definition is taken for the start of a block. -/
theorem assemble_of_tag_separated {source : String} {front : Spelling} {n : TagName}
    {rest : List Char} (hactions : ∀ b ∈ front, b.isAction = true)
    (htext : Source.strip source = Spelling.text front ++ (n.text ++ ';' :: rest)) :
    assemble source = .error (.malformed (.unknownMnemonic ";"
      (Spelling.text front ++ n.text).length)) := by
  let start := (Spelling.text front).length
  obtain ⟨t, hunknown⟩ := Scan.readBlock_unknown (Spelling.text front ++ n.text) (by decide)
    no_mnemonic_starts_with_semicolon rest
  have hmark : isTerminator ';' = true := rfl
  rw [if_pos hmark] at hunknown
  have hquiet : Quiet (n.text ++ ';' :: rest) :=
    (BlockSpelling.tag n).quiet_text_append (';' :: rest)
  have hread := Scan.readMany_append [] front hquiet
  rw [List.nil_append,
    Scan.readMany_of_ok (Scan.readBlock_tag_append (Spelling.text front) n (';' :: rest)),
    Scan.readMany_of_error (by simp) hunknown, ← htext] at hread
  have hdistinct : DistinctNames
      (Block.tagNames (Spelling.blocks 0 front ++ [.tag n.name start])) := by
    intro name i j hi hj
    have hnone := Spelling.not_definedAt hactions 0 name
    rw [Block.tagNames, List.map_append] at hi hj
    have hlast := ((definedAt_snoc_iff _ _ name i).mp hi).resolve_left (hnone i)
    have hlast' := ((definedAt_snoc_iff _ _ name j).mp hj).resolve_left (hnone j)
    rw [hlast.1, hlast'.1]
  exact assemble_malformed hread hdistinct

section Separated

variable {spelling front : Spelling} {source separated : String} {p : Program}

/-- Behind each block but the last one a `;` is no more than another spelling of it. -/
theorem assemble_of_actions_separated {last : BlockSpelling}
    (hbare : ∀ b ∈ front, b.hasSeparator = false) (hactions : ∀ b ∈ front, b.isAction = true)
    (hsource : Source.strip source = Spelling.text (front ++ [last]))
    (hseparated : Source.strip separated = Spelling.separatedText (front ++ [last]))
    (hp : assemble source = .ok p) : assemble separated = .ok p := by
  have hother : Source.strip separated =
      Spelling.text (front.map BlockSpelling.separated ++ [last]) := by
    rw [hseparated, Spelling.separatedText_append hactions hbare (List.cons_ne_nil _ _),
      Spelling.separatedText_singleton, Spelling.text_append, Spelling.text_cons]
    simp [Spelling.text]
  apply assemble_respelled hsource hother _ hp
  apply List.rel_append
  · rw [List.forall₂_map_right_iff, List.forall₂_same]
    intro b _ position
    exact (b.block_separated position).symm
  · exact .cons (fun _ => rfl) .nil

/-- The first tag definition that is not the last block makes the `;` behind it an error. -/
theorem assemble_of_separated_split {n : TagName} {back : Spelling}
    (hbare : ∀ b ∈ front, b.hasSeparator = false) (hactions : ∀ b ∈ front, b.isAction = true)
    (hne : back ≠ [])
    (hseparated : Source.strip separated = Spelling.separatedText (front ++ .tag n :: back)) :
    assemble separated = .error (.malformed (.unknownMnemonic ";"
      (Spelling.separatedText (front ++ [.tag n])).length)) := by
  have hmarked : ∀ b ∈ front.map BlockSpelling.separated, b.isAction = true := by
    intro b hb
    obtain ⟨a, ha, rfl⟩ := List.mem_map.mp hb
    rw [a.isAction_separated]
    exact hactions a ha
  rw [Spelling.separatedText_append hactions hbare (List.cons_ne_nil _ _),
    Spelling.separatedText_cons _ hne] at hseparated
  rw [Spelling.separatedText_append hactions hbare (List.cons_ne_nil _ _),
    Spelling.separatedText_singleton]
  exact assemble_of_tag_separated hmarked hseparated

/-- A source whose blocks are written without `;` assembles to the same program with a `;` between
each two of them if and only if no tag definition stands before another block. If one does, the `;`
behind the first of them is an unknown mnemonic. White space and comments may stand in either
source, wherever they are dropped. -/
theorem assemble_separated_iff (hbare : ∀ b ∈ spelling, b.hasSeparator = false)
    (hsource : Source.strip source = spelling.text)
    (hseparated : Source.strip separated = spelling.separatedText)
    (hp : assemble source = .ok p) :
    (assemble separated = .ok p ↔ ∀ b ∈ spelling.dropLast, b.isAction = true) ∧
    ∀ front n back, spelling = front ++ .tag n :: back → back ≠ [] →
      (∀ b ∈ front, b.isAction = true) →
      assemble separated = .error (.malformed (.unknownMnemonic ";"
        (Spelling.separatedText (front ++ [.tag n])).length)) := by
  have hrejected (front : Spelling) (n : TagName) (back : Spelling)
      (hsplit : spelling = front ++ .tag n :: back) (hne : back ≠ [])
      (hactions : ∀ b ∈ front, b.isAction = true) :
      assemble separated = .error (.malformed (.unknownMnemonic ";"
        (Spelling.separatedText (front ++ [.tag n])).length)) := by
    subst hsplit
    exact assemble_of_separated_split (fun b hb => hbare b (List.mem_append_left _ hb)) hactions hne
      hseparated
  refine ⟨?_, hrejected⟩
  rcases List.eq_nil_or_concat' spelling with rfl | ⟨front, last, rfl⟩
  · rw [Spelling.separatedText_nil] at hseparated
    simp [assemble_respelled hsource hseparated .nil hp]
  · rw [List.dropLast_concat]
    constructor
    · intro hok
      by_contra hnot
      obtain ⟨before, n, back, rfl, hactions⟩ := Spelling.exists_first_tag hnot
      have herror := hrejected before n (back ++ [last]) (by simp) (by simp) hactions
      cases herror.symm.trans hok
    · intro hactions
      exact assemble_of_actions_separated (fun b hb => hbare b (by simp [hb])) hactions hsource
        hseparated hp

end Separated

def bareNop (breakpoint : Bool) : BlockSpelling :=
  .action "nop" .nop (by decide) none Option.isSome_none breakpoint false

def tagA : BlockSpelling :=
  .tag ⟨['a'], by simp⟩

theorem separated_action_then_tag :
    (∀ b ∈ [bareNop true, tagA], b.hasSeparator = false) ∧
    Source.strip "nop* #end# :a:" = Spelling.text [bareNop true, tagA] ∧
    Source.strip "nop* ; :a:" = Spelling.separatedText [bareNop true, tagA] ∧
    assemble "nop* #end# :a:" = .ok (.ofInstructions #[⟨.nop, none, true, none⟩, .tag "a"]) ∧
    assemble "nop* ; :a:" = .ok (.ofInstructions #[⟨.nop, none, true, none⟩, .tag "a"]) := by
  have hbare : ∀ b ∈ [bareNop true, tagA], b.hasSeparator = false := by
    simp [bareNop, tagA, BlockSpelling.hasSeparator]
  have hsource : Source.strip "nop* #end# :a:" = Spelling.text [bareNop true, tagA] := by
    decide +kernel
  have hseparated : Source.strip "nop* ; :a:" = Spelling.separatedText [bareNop true, tagA] := by
    decide +kernel
  have hp : assemble "nop* #end# :a:" =
      .ok (.ofInstructions #[⟨.nop, none, true, none⟩, .tag "a"]) := by
    decide +kernel
  have hactions : ∀ b ∈ [bareNop true, tagA].dropLast, b.isAction = true := by
    simp [bareNop, BlockSpelling.isAction]
  exact ⟨hbare, hsource, hseparated, hp,
    (assemble_separated_iff hbare hsource hseparated hp).1.mpr hactions⟩

theorem separated_tag_then_action_rejected :
    (∀ b ∈ [tagA, bareNop false], b.hasSeparator = false) ∧
    Source.strip ":a:nop" = Spelling.text [tagA, bareNop false] ∧
    Source.strip ":a:;nop" = Spelling.separatedText [tagA, bareNop false] ∧
    assemble ":a:nop" = .ok (.ofInstructions #[.tag "a", ⟨.nop, none, false, none⟩]) ∧
    assemble ":a:;nop" = .error (.malformed (.unknownMnemonic ";" 3)) := by
  refine ⟨?_, by decide +kernel⟩
  simp [bareNop, tagA, BlockSpelling.hasSeparator]

end AccumulatorMachine
