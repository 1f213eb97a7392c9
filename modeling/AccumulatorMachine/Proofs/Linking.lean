import AccumulatorMachine.Assembly
import AccumulatorMachine.Proofs.BlockReading
import AccumulatorMachine.Proofs.TagIndex
import Mathlib.Data.List.Forall2

/-!
What assembly returns, said of the blocks of a source as a whole. A tag that is defined again comes
before all other errors, an error in a block before a reference to nothing; and without errors each
block becomes the instruction that refers to tags by their places.
-/
namespace AccumulatorMachine

namespace Block

/-- The tag that a block defines. -/
def tagName? : Block → Option String
  | .tag name _ => some name
  | .action .. => none

/-- The tag that a block refers to. -/
def reference? : Block → Option String
  | .action _ (some (.tag name)) _ _ => some name
  | _ => none

def tagNames (blocks : List Block) : List (Option String) :=
  blocks.map tagName?

end Block

/-- The spelling is that of an action, not of a tag definition. -/
def BlockSpelling.isAction : BlockSpelling → Bool
  | .tag _ => false
  | .action .. => true

/-- Actions alone define no tag. -/
theorem Spelling.not_definedAt {spelling : Spelling} (h : ∀ b ∈ spelling, b.isAction = true)
    (position : Nat) (name : String) (index : Nat) :
    ¬DefinedAt (Block.tagNames (spelling.blocks position)) name index := by
  induction spelling generalizing position index with
  | nil =>
    intro hdefined
    cases hdefined
  | cons b rest ih =>
    cases b with
    | tag n => exact absurd (h _ List.mem_cons_self) Bool.false_ne_true
    | action word opcode known argument arity breakpoint separator =>
      have hrest : ∀ b ∈ rest, b.isAction = true := fun b hb => h b (List.mem_cons_of_mem _ hb)
      cases index with
      | zero =>
        intro hdefined
        cases Option.some.inj hdefined
      | succ index => exact ih hrest _ index

theorem Spelling.distinctNames {spelling : Spelling} (h : ∀ b ∈ spelling, b.isAction = true)
    (position : Nat) : DistinctNames (Block.tagNames (spelling.blocks position)) := by
  intro name i j hi
  exact absurd hi (not_definedAt h position name i)

/-- The first tag that is defined again, with the places of both definitions. -/
structure FirstRepeat (names : List (Option String)) (name : String) (first second : Nat) :
    Prop where
  first_defined : DefinedAt names name first
  second_defined : DefinedAt names name second
  lt : first < second
  least : ∀ other i j, DefinedAt names other i → DefinedAt names other j → i < j → second ≤ j

/-- Every reference among the blocks has a definition among them. -/
def AllDefined (blocks : List Block) : Prop :=
  ∀ block ∈ blocks, ∀ name, block.reference? = some name →
    ∃ index, DefinedAt (Block.tagNames blocks) name index

/-- The first reference that has no definition, with the position of its block. -/
def FirstUndefined (blocks : List Block) (name : String) (position : Nat) : Prop :=
  ∃ front block back, blocks = front ++ block :: back ∧ block.reference? = some name ∧
    block.position = position ∧ (∀ index, ¬DefinedAt (Block.tagNames blocks) name index) ∧
    ∀ earlier ∈ front, ∀ other, earlier.reference? = some other →
      ∃ index, DefinedAt (Block.tagNames blocks) other index

/-- The operand for an argument: a tag has the place of its definition for a target. -/
inductive Resolves (names : List (Option String)) : Argument → Operand → Prop
  | literal (value : Int64) : Resolves names (.literal value) (.literal value)
  | register (r : Register) : Resolves names (.register r) (.register r)
  | tag {name : String} {target : Nat} (defined : DefinedAt names name target) :
    Resolves names (.tag name) (.tag name target)

/-- The instruction for a block. -/
inductive Becomes (names : List (Option String)) : Block → Instruction → Prop
  | tag (name : String) (position : Nat) :
    Becomes names (.tag name position) ⟨.tag, none, false, some name⟩
  | bare (opcode : Opcode) (breakpoint : Bool) (position : Nat) :
    Becomes names (.action opcode none breakpoint position) ⟨opcode, none, breakpoint, none⟩
  | applied {argument : Argument} {operand : Operand} (opcode : Opcode) (breakpoint : Bool)
    (position : Nat) (resolved : Resolves names argument operand) :
    Becomes names (.action opcode (some argument) breakpoint position)
      ⟨opcode, some operand, breakpoint, none⟩

/-- The outcome of assembly, from the blocks before the first error or the end, and that error. -/
inductive Verdict (blocks : List Block) (error? : Option BlockError) :
    Except AssemblyError Program → Prop
  | duplicate {name : String} {first second : Nat}
    (again : FirstRepeat (Block.tagNames blocks) name first second) :
    Verdict blocks error? (.error (.duplicateTag name first second))
  | malformed {e : BlockError} (distinct : DistinctNames (Block.tagNames blocks))
    (failed : error? = some e) : Verdict blocks error? (.error (.malformed e))
  | undefined {name : String} {position : Nat} (distinct : DistinctNames (Block.tagNames blocks))
    (complete : error? = none) (missing : FirstUndefined blocks name position) :
    Verdict blocks error? (.error (.undefinedTag name position))
  | linked {p : Program} (distinct : DistinctNames (Block.tagNames blocks))
    (complete : error? = none) (defined : AllDefined blocks)
    (instructions : List.Forall₂ (Becomes (Block.tagNames blocks)) blocks p.instructions.toList)
    (table : p.tags = (Program.ofInstructions p.instructions).tags) :
    Verdict blocks error? (.ok p)

namespace Assembly

/-- What the first pass can end with, from all blocks there are and the error behind them. -/
inductive Gathered (blocks : List Block) (error? : Option BlockError) :
    Draft × Option AssemblyError → Prop
  | duplicate {name : String} {first second : Nat} (draft : Draft)
    (again : FirstRepeat (Block.tagNames blocks) name first second) :
    Gathered blocks error? (draft, some (.duplicateTag name first second))
  | malformed {e : BlockError} (draft : Draft) (distinct : DistinctNames (Block.tagNames blocks))
    (failed : error? = some e) : Gathered blocks error? (draft, some (.malformed e))
  | complete (draft : Draft) (all : draft.blocks.toList = blocks) (complete : error? = none)
    (table : draft.tags.Indexes (Block.tagNames blocks)) : Gathered blocks error? (draft, none)

/-- The table of a draft indexes its blocks. -/
def Draft.Indexed (draft : Draft) : Prop :=
  draft.tags.Indexes (Block.tagNames draft.blocks.toList)

theorem length_tagNames_blocks (draft : Draft) :
    (Block.tagNames draft.blocks.toList).length = draft.blocks.size := by
  unfold Block.tagNames
  rw [List.length_map, Array.length_toList]

theorem Draft.Indexed.add {draft : Draft} (h : draft.Indexed) {block : Block}
    (hnew : draft.duplicate? block = none) : (draft.add block).Indexed := by
  have hnames : Block.tagNames (draft.add block).blocks.toList =
      Block.tagNames draft.blocks.toList ++ [block.tagName?] := by
    simp [Draft.add, Block.tagNames]
  unfold Draft.Indexed
  rw [hnames]
  cases block with
  | tag name position =>
    have hnone : draft.tags[name]? = none := by simpa [Draft.duplicate?] using hnew
    have hinsert := h.insert ((h.getElem?_eq_none name).mp hnone)
    rw [length_tagNames_blocks] at hinsert
    exact hinsert
  | action opcode argument breakpoint position => exact h.skip

/-- A tag that is refused is the first one defined again, whatever comes behind it. -/
theorem Draft.Indexed.firstRepeat {draft : Draft} (h : draft.Indexed) {block : Block}
    {e : AssemblyError} (hdup : draft.duplicate? block = some e) (later : List Block) :
    ∃ name first, e = .duplicateTag name first draft.blocks.size ∧
      FirstRepeat (Block.tagNames (draft.blocks.toList ++ block :: later)) name first
        draft.blocks.size := by
  have hnames : Block.tagNames (draft.blocks.toList ++ block :: later) =
      Block.tagNames draft.blocks.toList ++ block.tagName? :: Block.tagNames later := by
    simp [Block.tagNames]
  rw [hnames]
  have hlen := length_tagNames_blocks draft
  cases block with
  | action opcode argument breakpoint position => cases hdup
  | tag name position =>
    obtain ⟨first, hfirst, rfl⟩ := Option.map_eq_some_iff.mp hdup
    have hdefined := (h name first).mp hfirst
    refine ⟨name, first, rfl, hdefined.append _, ?_, ?_, ?_⟩
    · rw [← hlen]
      exact (definedAt_append_cons_iff _ _ _ _).mpr rfl
    · rw [← hlen]
      exact hdefined.lt_length
    · intro other i j hi hj hij
      by_contra hlt
      have hj' := hj.of_append (by omega)
      have hi' := hi.of_append (by omega)
      have heq := h.distinct other i j hi' hj'
      omega

theorem gathered_gather (s : Scan) (draft : Draft) (h : draft.Indexed) :
    Gathered (draft.blocks.toList ++ s.readMany.1) s.readMany.2 (gather s draft) := by
  -- The draft holds the blocks read so far, which its table indexes, and the scan gives the others.
  fun_induction gather s draft with
  | case1 s draft hend =>
    rw [Scan.readMany_of_end hend, List.append_nil]
    exact .complete draft rfl rfl h
  | case2 s draft hend noted e t hread =>
    rw [Scan.readMany_of_error hend hread, List.append_nil]
    exact .malformed noted h.distinct rfl
  | case3 s draft hend noted block next hread e hdup =>
    rw [Scan.readMany_of_ok hread]
    obtain ⟨name, first, rfl, hrepeat⟩ := Draft.Indexed.firstRepeat h hdup next.readMany.1
    exact .duplicate noted hrepeat
  | case4 s draft hend noted block next hread hnew hlt ih =>
    have hadd : (noted.add block).Indexed := Draft.Indexed.add h hnew
    have hblocks : (noted.add block).blocks.toList = draft.blocks.toList ++ [block] := by
      simp [Draft.add, noted, Draft.note]
    have hgathered := ih hadd
    rw [hblocks, List.append_assoc, List.singleton_append] at hgathered
    rwa [Scan.readMany_of_ok hread]

variable {tags : TagTable} {names : List (Option String)}

/-- What linking a block can end with. -/
theorem linkBlock_cases (h : tags.Indexes names) (block : Block) :
    (∃ instruction, linkBlock tags block = .ok instruction ∧ Becomes names block instruction ∧
      ∀ name, block.reference? = some name → ∃ index, DefinedAt names name index) ∨
    ∃ name, linkBlock tags block = .error (.undefinedTag name block.position) ∧
      block.reference? = some name ∧ ∀ index, ¬DefinedAt names name index := by
  cases block with
  | tag name position => exact Or.inl ⟨_, rfl, .tag name position, fun _ hno => nomatch hno⟩
  | action opcode argument breakpoint position =>
    cases argument with
    | none =>
      exact Or.inl ⟨_, rfl, .bare opcode breakpoint position, fun _ hno => nomatch hno⟩
    | some argument =>
      cases argument with
      | literal value =>
        exact Or.inl ⟨_, rfl, .applied opcode breakpoint position (.literal value),
          fun _ hno => nomatch hno⟩
      | register r =>
        exact Or.inl ⟨_, rfl, .applied opcode breakpoint position (.register r),
          fun _ hno => nomatch hno⟩
      | tag name =>
        cases hlookup : tags[name]? with
        | some target =>
          have hdefined := (h name target).mp hlookup
          refine Or.inl ⟨⟨opcode, some (.tag name target), breakpoint, none⟩, ?_,
            .applied opcode breakpoint position (.tag hdefined), ?_⟩
          · simp only [linkBlock, linkArgument, hlookup]
            rfl
          · intro other hother
            obtain rfl : name = other := Option.some.inj hother
            exact ⟨target, hdefined⟩
        | none =>
          refine Or.inr ⟨name, ?_, rfl, (h.getElem?_eq_none name).mp hlookup⟩
          simp only [linkBlock, linkArgument, hlookup]
          rfl

theorem link_cases (h : tags.Indexes names) (blocks : List Block) :
    (∃ instructions, link tags blocks = .ok instructions ∧
      List.Forall₂ (Becomes names) blocks instructions ∧
      ∀ block ∈ blocks, ∀ name, block.reference? = some name →
        ∃ index, DefinedAt names name index) ∨
    ∃ front block back name, link tags blocks = .error (.undefinedTag name block.position) ∧
      blocks = front ++ block :: back ∧ block.reference? = some name ∧
      (∀ index, ¬DefinedAt names name index) ∧
      ∀ earlier ∈ front, ∀ other, earlier.reference? = some other →
        ∃ index, DefinedAt names other index := by
  induction blocks with
  | nil => exact Or.inl ⟨[], rfl, .nil, fun _ hno => nomatch hno⟩
  | cons block rest ih =>
    rcases linkBlock_cases h block with ⟨instruction, hlink, hbecomes, hdefined⟩ |
      ⟨name, hlink, hname, hmissing⟩
    · rcases ih with ⟨instructions, hrest, hall, hdefined'⟩ |
        ⟨front, failing, back, name, hrest, rfl, hname, hmissing, hearlier⟩
      · refine Or.inl ⟨instruction :: instructions, ?_, .cons hbecomes hall, ?_⟩
        · simp only [link, hlink, hrest]
          rfl
        · intro b hb
          rcases List.mem_cons.mp hb with rfl | hb
          · exact hdefined
          · exact hdefined' b hb
      · refine Or.inr ⟨block :: front, failing, back, name, ?_, rfl, hname, hmissing, ?_⟩
        · simp only [link, hlink, hrest]
          rfl
        · intro b hb
          rcases List.mem_cons.mp hb with rfl | hb
          · exact hdefined
          · exact hearlier b hb
    · refine Or.inr ⟨[], block, rest, name, ?_, rfl, hname, hmissing, fun _ hno => nomatch hno⟩
      simp only [link, hlink]

end Assembly

theorem Becomes.tagName_eq {names : List (Option String)} {block : Block} {i : Instruction}
    (h : Becomes names block i) : i.tagName = block.tagName? := by
  cases h <;> rfl

/-- A program has the tag names of the blocks it was linked from. -/
theorem tagName_of_forall₂_becomes {names : List (Option String)} {blocks : List Block}
    {instructions : List Instruction}
    (h : List.Forall₂ (Becomes names) blocks instructions) :
    instructions.map Instruction.tagName = Block.tagNames blocks := by
  induction h with
  | nil => rfl
  | cons hbecomes _ ih =>
    rw [List.map_cons, hbecomes.tagName_eq, ih]
    rfl

/-- Assembly ends as the verdict on its blocks says. -/
theorem verdict_assemble (source : String) :
    Verdict (Scan.ofSource source).readMany.1 (Scan.ofSource source).readMany.2
      (assemble source) := by
  have hgathered := Assembly.gathered_gather (Scan.ofSource source) {} TagTable.indexes_empty
  change Assembly.Gathered (Scan.ofSource source).readMany.1 _ _ at hgathered
  unfold assemble Assembly.ofSource
  generalize Assembly.gather (Scan.ofSource source) {} = result at hgathered
  cases hgathered with
  | duplicate draft again => exact .duplicate again
  | malformed draft distinct failed => exact .malformed distinct failed
  | complete draft all complete table =>
    dsimp only
    rw [all]
    rcases Assembly.link_cases table (Scan.ofSource source).readMany.1 with
      ⟨instructions, hlink, hall, hdefined⟩ |
      ⟨front, block, back, name, hlink, hsplit, hname, hmissing, hearlier⟩
    · rw [hlink]
      refine .linked table.distinct complete hdefined hall ?_
      have hnames := tagName_of_forall₂_becomes hall
      have hdistinct : DistinctNames (instructions.map Instruction.tagName) := by
        rw [hnames]
        exact table.distinct
      have hindexes := TagTable.indexes_ofInstructions instructions.toArray hdistinct
      change TagTable.Indexes _ (instructions.map Instruction.tagName) at hindexes
      rw [hnames] at hindexes
      exact table.unique hindexes
    · rw [hlink]
      exact .undefined table.distinct complete
        ⟨front, block, back, hsplit, hname, rfl, hmissing, hearlier⟩

theorem FirstRepeat.not_distinct {names : List (Option String)} {name : String}
    {first second : Nat} (h : FirstRepeat names name first second) : ¬DistinctNames names := by
  intro hdistinct
  have heq := hdistinct name first second h.first_defined h.second_defined
  have hlt := h.lt
  omega

theorem FirstRepeat.unique {names : List (Option String)} {name name' : String}
    {first first' second second' : Nat} (h : FirstRepeat names name first second)
    (h' : FirstRepeat names name' first' second') :
    name = name' ∧ first = first' ∧ second = second' := by
  obtain rfl : second = second' := by
    apply Nat.le_antisymm
    · exact h.least name' first' second' h'.first_defined h'.second_defined h'.lt
    · exact h'.least name first second h.first_defined h.second_defined h.lt
  obtain rfl : name = name' := by
    have hsome := h.second_defined.symm.trans h'.second_defined
    exact Option.some.inj (Option.some.inj hsome)
  refine ⟨rfl, ?_, rfl⟩
  have hlt := h.lt
  have hlt' := h'.lt
  rcases Nat.lt_trichotomy first first' with hless | heq | hless
  · have hle := h.least name first first' h.first_defined h'.first_defined hless
    omega
  · exact heq
  · have hle := h.least name first' first h'.first_defined h.first_defined hless
    omega

theorem FirstUndefined.not_allDefined {blocks : List Block} {name : String} {position : Nat}
    (h : FirstUndefined blocks name position) : ¬AllDefined blocks := by
  intro hall
  obtain ⟨front, block, back, hsplit, hname, -, hmissing, -⟩ := h
  have hmem : block ∈ blocks := by
    rw [hsplit]
    simp
  obtain ⟨index, hindex⟩ := hall block hmem name hname
  exact hmissing index hindex

/-- A block that refers to nothing stands behind the blocks that refer to something. -/
theorem length_front_le {blocks front front' back back' : List Block} {block block' : Block}
    {name : String} (hsplit : blocks = front ++ block :: back)
    (hsplit' : blocks = front' ++ block' :: back') (hname : block.reference? = some name)
    (hmissing : ∀ index, ¬DefinedAt (Block.tagNames blocks) name index)
    (hearlier : ∀ earlier ∈ front', ∀ other, earlier.reference? = some other →
      ∃ index, DefinedAt (Block.tagNames blocks) other index) : front'.length ≤ front.length := by
  by_contra hlt
  have hget : front'[front.length]? = some block := by
    rw [← List.getElem?_append_left (by omega), ← hsplit', hsplit,
      List.getElem?_append_right (Nat.le_refl _), Nat.sub_self, List.getElem?_cons_zero]
  obtain ⟨index, hindex⟩ := hearlier block (List.mem_of_getElem? hget) name hname
  exact hmissing index hindex

theorem FirstUndefined.unique {blocks : List Block} {name name' : String}
    {position position' : Nat} (h : FirstUndefined blocks name position)
    (h' : FirstUndefined blocks name' position') : name = name' ∧ position = position' := by
  obtain ⟨front, block, back, hsplit, hname, rfl, hmissing, hearlier⟩ := h
  obtain ⟨front', block', back', hsplit', hname', rfl, hmissing', hearlier'⟩ := h'
  have hlen : front.length = front'.length := by
    apply Nat.le_antisymm
    · exact length_front_le hsplit' hsplit hname' hmissing' hearlier
    · exact length_front_le hsplit hsplit' hname hmissing hearlier'
  obtain ⟨-, htail⟩ := List.append_inj (hsplit.symm.trans hsplit') hlen
  obtain ⟨rfl, -⟩ := List.cons.inj htail
  exact ⟨Option.some.inj (hname.symm.trans hname'), rfl⟩

theorem Resolves.unique {names : List (Option String)} (hdistinct : DistinctNames names)
    {argument : Argument} {operand operand' : Operand} (h : Resolves names argument operand)
    (h' : Resolves names argument operand') : operand = operand' := by
  cases h with
  | literal value =>
    cases h'
    rfl
  | register r =>
    cases h'
    rfl
  | tag defined =>
    cases h' with
    | tag defined' => rw [hdistinct _ _ _ defined defined']

theorem Becomes.unique {names : List (Option String)} (hdistinct : DistinctNames names)
    {block : Block} {i i' : Instruction} (h : Becomes names block i) (h' : Becomes names block i') :
    i = i' := by
  cases h with
  | tag name position =>
    cases h'
    rfl
  | bare opcode breakpoint position =>
    cases h'
    rfl
  | applied opcode breakpoint position resolved =>
    cases h' with
    | applied _ _ _ resolved' => rw [Resolves.unique hdistinct resolved resolved']

theorem Program.eq_of_table {p p' : Program} (h : p.instructions = p'.instructions)
    (htable : p.tags = (Program.ofInstructions p.instructions).tags)
    (htable' : p'.tags = (Program.ofInstructions p'.instructions).tags) : p = p' := by
  obtain ⟨instructions, tags⟩ := p
  obtain ⟨instructions', tags'⟩ := p'
  obtain rfl : instructions = instructions' := h
  rw [show tags = tags' from htable.trans htable'.symm]

theorem Verdict.unique {blocks : List Block} {error? : Option BlockError}
    {result result' : Except AssemblyError Program} (h : Verdict blocks error? result)
    (h' : Verdict blocks error? result') : result = result' := by
  cases h with
  | duplicate again =>
    cases h' with
    | duplicate again' =>
      obtain ⟨rfl, rfl, rfl⟩ := again.unique again'
      rfl
    | malformed distinct _ | undefined distinct _ _ | linked distinct _ _ _ _ =>
      exact absurd distinct again.not_distinct
  | malformed distinct failed =>
    cases h' with
    | duplicate again' => exact absurd distinct again'.not_distinct
    | malformed _ failed' => rw [Option.some.inj (failed.symm.trans failed')]
    | undefined _ complete _ | linked _ complete _ _ _ => cases failed.symm.trans complete
  | undefined distinct complete missing =>
    cases h' with
    | duplicate again' => exact absurd distinct again'.not_distinct
    | malformed _ failed' => cases failed'.symm.trans complete
    | undefined _ _ missing' =>
      obtain ⟨rfl, rfl⟩ := missing.unique missing'
      rfl
    | linked _ _ defined _ _ => exact absurd defined missing.not_allDefined
  | linked distinct complete defined instructions table =>
    cases h' with
    | duplicate again' => exact absurd distinct again'.not_distinct
    | malformed _ failed' => cases failed'.symm.trans complete
    | undefined _ _ missing' => exact absurd defined missing'.not_allDefined
    | linked _ _ _ instructions' table' =>
      have hunique : Relator.RightUnique (Becomes (Block.tagNames blocks)) :=
        fun _ _ _ hi hi' => Becomes.unique distinct hi hi'
      have hlist := hunique.forall₂ instructions instructions'
      rw [Program.eq_of_table (Array.toList_inj.mp hlist) table table']

/-- A block that cannot be read ends assembly, if all tags before it are distinct. -/
theorem assemble_malformed {source : String} {blocks : List Block} {e : BlockError}
    (hread : (Scan.ofSource source).readMany = (blocks, some e))
    (hdistinct : DistinctNames (Block.tagNames blocks)) :
    assemble source = .error (.malformed e) := by
  have hverdict := verdict_assemble source
  rw [hread] at hverdict
  exact hverdict.unique (.malformed hdistinct rfl)

/-- Assembly is a linker in two passes over the blocks that come before the first error or the end.
The four kinds of outcome belong to four conditions of which exactly one holds. -/
theorem assemble_eq_iff_verdict (source : String) :
    (∀ result, assemble source = result ↔
      Verdict (Scan.ofSource source).readMany.1 (Scan.ofSource source).readMany.2 result) ∧
    ((∃ name first second, assemble source = .error (.duplicateTag name first second)) ↔
      ¬DistinctNames (Block.tagNames (Scan.ofSource source).readMany.1)) ∧
    ((∃ e, assemble source = .error (.malformed e)) ↔
      DistinctNames (Block.tagNames (Scan.ofSource source).readMany.1) ∧
      (Scan.ofSource source).readMany.2 ≠ none) ∧
    ((∃ name position, assemble source = .error (.undefinedTag name position)) ↔
      DistinctNames (Block.tagNames (Scan.ofSource source).readMany.1) ∧
      (Scan.ofSource source).readMany.2 = none ∧
      ¬AllDefined (Scan.ofSource source).readMany.1) ∧
    ((∃ p, assemble source = .ok p) ↔
      DistinctNames (Block.tagNames (Scan.ofSource source).readMany.1) ∧
      (Scan.ofSource source).readMany.2 = none ∧
      AllDefined (Scan.ofSource source).readMany.1) := by
  have hverdict := verdict_assemble source
  refine ⟨fun result => ⟨fun h => h ▸ hverdict, fun h => hverdict.unique h⟩, ?_⟩
  generalize assemble source = result at hverdict
  cases hverdict with
  | duplicate again => simp [again.not_distinct]
  | malformed distinct failed => simp [distinct, failed]
  | undefined distinct complete missing => simp [distinct, complete, missing.not_allDefined]
  | linked distinct complete defined _ _ => simp [distinct, complete, defined]

end AccumulatorMachine
