import AccumulatorMachine.Proofs.CanonicalSource
import Mathlib.Data.Nat.Find

/-!
Assembling two sources written one after the other. No block goes over the seam, so the program is
that of the first source followed by that of the second, with the targets of the second moved behind
the first. A tag of both is defined twice.
-/
namespace AccumulatorMachine

/-- The operand for a program in front of which so many instructions are put. -/
def Operand.shift (offset : Nat) : Operand → Operand
  | .literal value => .literal value
  | .register r => .register r
  | .tag name target => .tag name (target + offset)

def Instruction.shift (offset : Nat) (i : Instruction) : Instruction :=
  { i with operand := i.operand.map (Operand.shift offset) }

namespace Program

/-- One program behind the other, under one table. -/
def append (p q : Program) : Program where
  instructions := p.instructions ++ q.instructions.map (Instruction.shift p.size)
  tags := p.tags ∪ q.tags.map fun _ index => index + p.size

/-- No tag is defined in both programs. -/
def DisjointTags (p q : Program) : Prop :=
  ∀ name, p.tag? name = none ∨ q.tag? name = none

/-- The first tag of the second program that the first one defines as well, with its index in each of
them. -/
structure FirstShared (p q : Program) (name : String) (first second : Nat) : Prop where
  left : p.tag? name = some first
  right : q.tag? name = some second
  least : ∀ other index, q.tag? other = some index → index < second → p.tag? other = none

theorem exists_firstShared {p q : Program} (h : ¬p.DisjointTags q) :
    ∃ name first second, p.FirstShared q name first second := by
  classical
  have hany : ∃ second name first, p.tag? name = some first ∧ q.tag? name = some second := by
    unfold DisjointTags at h
    push Not at h
    obtain ⟨name, hp, hq⟩ := h
    obtain ⟨first, hfirst⟩ := Option.ne_none_iff_exists'.mp hp
    obtain ⟨second, hsecond⟩ := Option.ne_none_iff_exists'.mp hq
    exact ⟨second, name, first, hfirst, hsecond⟩
  obtain ⟨name, first, hfirst, hsecond⟩ := Nat.find_spec hany
  refine ⟨name, first, Nat.find hany, hfirst, hsecond, fun other index hother hlt => ?_⟩
  by_contra hsome
  obtain ⟨earlier, hearlier⟩ := Option.ne_none_iff_exists'.mp hsome
  exact Nat.find_min hany hlt ⟨other, earlier, hearlier, hother⟩

end Program

theorem definedAt_append_iff (names later : List (Option String)) (name : String) (index : Nat) :
    DefinedAt (names ++ later) name index ↔
      DefinedAt names name index ∨
        ∃ place, index = place + names.length ∧ DefinedAt later name place := by
  constructor
  · intro h
    rcases Nat.lt_or_ge index names.length with hlt | hge
    · exact Or.inl (h.of_append hlt)
    · refine Or.inr ⟨index - names.length, (Nat.sub_add_cancel hge).symm, ?_⟩
      unfold DefinedAt at h ⊢
      rwa [List.getElem?_append_right hge] at h
  · rintro (h | ⟨place, rfl, h⟩)
    · exact h.append later
    · unfold DefinedAt
      rw [List.getElem?_append_right (Nat.le_add_left _ _), Nat.add_sub_cancel]
      exact h

theorem TagTable.Indexes.append {tags tags' : TagTable} {names later : List (Option String)}
    (h : tags.Indexes names) (h' : tags'.Indexes later)
    (hdisjoint : ∀ name : String, tags[name]? = none ∨ tags'[name]? = none) :
    TagTable.Indexes (tags ∪ tags'.map fun _ index => index + names.length) (names ++ later) := by
  intro name index
  rw [definedAt_append_iff, Std.ExtTreeMap.getElem?_union, Std.ExtTreeMap.getElem?_map,
    Option.or_eq_some_iff, Option.map_eq_some_iff, Option.map_eq_none_iff, ← h name index]
  constructor
  · rintro (⟨place, hplace, rfl⟩ | ⟨-, hindex⟩)
    · exact Or.inr ⟨place, rfl, (h' name place).mp hplace⟩
    · exact Or.inl hindex
  · rintro (hindex | ⟨place, rfl, hplace⟩)
    · refine Or.inr ⟨(hdisjoint name).resolve_left ?_, hindex⟩
      rw [hindex]
      exact Option.some_ne_none _
    · exact Or.inl ⟨place, (h' name place).mpr hplace, rfl⟩

theorem Spelling.text_append (a b : Spelling) :
    Spelling.text (a ++ b) = Spelling.text a ++ Spelling.text b :=
  List.flatMap_append

theorem Spelling.blocks_append (a b : Spelling) (position : Nat) :
    Spelling.blocks position (a ++ b) =
      Spelling.blocks position a ++ Spelling.blocks (position + (Spelling.text a).length) b := by
  induction a generalizing position with
  | nil => rfl
  | cons first rest ih =>
    rw [List.cons_append, Spelling.blocks, ih, Spelling.blocks, Spelling.text_cons,
      List.length_append, List.cons_append, Nat.add_assoc]

theorem Becomes.move {names : List (Option String)} {b : BlockSpelling} {i : Instruction}
    {position : Nat} (h : Becomes names (b.block position) i) (other : Nat) :
    Becomes names (b.block other) i := by
  cases b with
  | tag n =>
    cases h
    exact .tag n.name other
  | action word opcode known argument arity breakpoint separator =>
    cases argument with
    | none =>
      cases h
      exact .bare opcode breakpoint other
    | some a =>
      cases h with
      | applied _ _ _ resolved => exact .applied opcode breakpoint other resolved

/-- What a block becomes depends neither on where the block stands nor on how it is spelled. -/
theorem Becomes.respell {names : List (Option String)} {spelling respelled : Spelling}
    (hsame : List.Forall₂ (fun b b' => ∀ position, b.block position = b'.block position)
      spelling respelled) {instructions : List Instruction} {position : Nat}
    (h : List.Forall₂ (Becomes names) (spelling.blocks position) instructions) (other : Nat) :
    List.Forall₂ (Becomes names) (respelled.blocks other) instructions := by
  induction hsame generalizing position other instructions with
  | nil =>
    cases h
    exact .nil
  | cons hblock _ ih =>
    cases h with
    | cons hbecomes hall =>
      have hfirst := hbecomes.move other
      rw [hblock other] at hfirst
      exact .cons hfirst (ih hall _)

theorem Becomes.move_all {names : List (Option String)} {spelling : Spelling}
    {instructions : List Instruction} {position : Nat}
    (h : List.Forall₂ (Becomes names) (spelling.blocks position) instructions) (other : Nat) :
    List.Forall₂ (Becomes names) (spelling.blocks other) instructions :=
  Becomes.respell (List.forall₂_same.mpr fun _ _ _ => rfl) h other

section Shift

variable {names names' : List (Option String)} {offset : Nat}

theorem Resolves.shift {argument : Argument} {operand : Operand}
    (h : Resolves names argument operand)
    (hnames : ∀ name target, DefinedAt names name target → DefinedAt names' name (target + offset)) :
    Resolves names' argument (operand.shift offset) := by
  cases h with
  | literal value => exact .literal value
  | register r => exact .register r
  | tag defined => exact .tag (hnames _ _ defined)

theorem Becomes.shift {block : Block} {i : Instruction} (h : Becomes names block i)
    (hnames : ∀ name target, DefinedAt names name target → DefinedAt names' name (target + offset)) :
    Becomes names' block (i.shift offset) := by
  cases h with
  | tag name position => exact .tag name position
  | bare opcode breakpoint position => exact .bare opcode breakpoint position
  | applied opcode breakpoint position resolved =>
    exact .applied opcode breakpoint position (resolved.shift hnames)

theorem Becomes.shift_all {blocks : List Block} {instructions : List Instruction}
    (h : List.Forall₂ (Becomes names) blocks instructions)
    (hnames : ∀ name target, DefinedAt names name target → DefinedAt names' name (target + offset)) :
    List.Forall₂ (Becomes names') blocks (instructions.map (Instruction.shift offset)) := by
  rw [List.forall₂_map_right_iff]
  exact h.imp fun _ _ hbecomes => hbecomes.shift hnames

end Shift

theorem Instruction.shift_zero (i : Instruction) : i.shift 0 = i := by
  obtain ⟨opcode, operand, breakpoint, tagName⟩ := i
  rcases operand with _ | _ | _ | _ <;> rfl

theorem Program.tagNames_append (p q : Program) :
    (p.append q).tagNames = p.tagNames ++ q.tagNames := by
  simp [Program.tagNames, Program.append, Instruction.shift, Function.comp_def]

/-- A tag of both programs is defined twice in the joined list of names, and none before it. -/
theorem Program.FirstShared.firstRepeat {p q : Program} {name : String} {first second : Nat}
    (h : p.FirstShared q name first second) (hp : p.tags.Indexes p.tagNames)
    (hq : q.tags.Indexes q.tagNames) :
    FirstRepeat (p.tagNames ++ q.tagNames) name first (p.size + second) := by
  have hfirst : DefinedAt p.tagNames name first := (hp name first).mp h.left
  have hsecond : DefinedAt q.tagNames name second := (hq name second).mp h.right
  have hsize : p.tagNames.length = p.size := p.length_tagNames
  refine ⟨hfirst.append q.tagNames, ?_, ?_, fun other i j hi hj hij => ?_⟩
  · rw [definedAt_append_iff]
    exact Or.inr ⟨second, by omega, hsecond⟩
  · have hlt := hfirst.lt_length
    omega
  · rw [definedAt_append_iff] at hi hj
    rcases hj with hj | ⟨place, rfl, hplace⟩
    · have hlt := hj.lt_length
      rcases hi with hi | ⟨_, rfl, _⟩
      · have heq := hp.distinct other i j hi hj
        omega
      · omega
    · rcases hi with hi | ⟨place', rfl, hplace'⟩
      · by_contra hlt
        have hnone := h.least other place ((hq other place).mpr hplace) (by omega)
        have hsome : p.tag? other = some i := (hp other i).mpr hi
        rw [hnone] at hsome
        cases hsome
      · have heq := hq.distinct other place' place hplace' hplace
        omega

/-- The blocks of joined sources define the tags of both, those of the second behind those of the
first. -/
theorem exists_blocks_append {s t : String} {p q : Program} (hs : assemble s = .ok p)
    (ht : assemble t = .ok q) (hseam : s.toList.count '#' % 2 = 0 ∨ '#' ∉ t.toList) :
    ∃ spelling : Spelling, Source.strip (s ++ t) = spelling.text ∧
      Block.tagNames (spelling.blocks 0) = p.tagNames ++ q.tagNames ∧
      List.Forall₂ (Becomes (p.tagNames ++ q.tagNames)) (spelling.blocks 0)
        (p.append q).instructions.toList := by
  obtain ⟨a, hatext, haall, -⟩ := assemble_eq_ok_iff.mp hs
  obtain ⟨b, hbtext, hball, -⟩ := assemble_eq_ok_iff.mp ht
  have hall : List.Forall₂ (Becomes (p.tagNames ++ q.tagNames)) (Spelling.blocks 0 (a ++ b))
      (p.append q).instructions.toList := by
    have hleft : List.Forall₂ (Becomes (p.tagNames ++ q.tagNames)) (Spelling.blocks 0 a)
        (p.instructions.toList.map (Instruction.shift 0)) :=
      Becomes.shift_all haall fun name target h => h.append q.tagNames
    have hright : List.Forall₂ (Becomes (p.tagNames ++ q.tagNames))
        (Spelling.blocks (0 + (Spelling.text a).length) b)
        (q.instructions.toList.map (Instruction.shift p.size)) := by
      refine Becomes.shift_all (Becomes.move_all hball _) fun name target h => ?_
      rw [definedAt_append_iff, p.length_tagNames]
      exact Or.inr ⟨target, rfl, h⟩
    rw [List.map_congr_left fun i _ => i.shift_zero, List.map_id'] at hleft
    rw [Spelling.blocks_append, Program.append, Array.toList_append, Array.toList_map]
    exact List.rel_append hleft hright
  refine ⟨a ++ b, ?_, ?_, hall⟩
  · rw [Source.strip_append hseam, hatext, hbtext, Spelling.text_append]
  · rw [← tagName_of_forall₂_becomes hall]
    exact p.tagNames_append q

/-- Two sources that assemble also do so one behind the other, if no comment goes over the seam. With
no tag in common they give the joined program; and else the first tag of the second source that the
first one has as well is defined twice. -/
theorem assemble_append {s t : String} {p q : Program} (hs : assemble s = .ok p)
    (ht : assemble t = .ok q) (hseam : s.toList.count '#' % 2 = 0 ∨ '#' ∉ t.toList) :
    (p.DisjointTags q → assemble (s ++ t) = .ok (p.append q)) ∧
    (¬p.DisjointTags q → ∃ name first second, p.FirstShared q name first second ∧
      assemble (s ++ t) = .error (.duplicateTag name first (p.size + second))) := by
  obtain ⟨spelling, htext, hnames, hall⟩ := exists_blocks_append hs ht hseam
  obtain ⟨-, -, -, hp⟩ := assemble_eq_ok_iff.mp hs
  obtain ⟨-, -, -, hq⟩ := assemble_eq_ok_iff.mp ht
  constructor
  · intro hdisjoint
    have hindexes := TagTable.Indexes.append hp hq hdisjoint
    rw [p.length_tagNames] at hindexes
    rw [assemble_eq_ok_iff, Program.tagNames_append]
    exact ⟨spelling, htext, hall, hindexes⟩
  · intro hshared
    obtain ⟨name, first, second, h⟩ := Program.exists_firstShared hshared
    refine ⟨name, first, second, h, ?_⟩
    have hverdict := verdict_assemble (s ++ t)
    rw [Scan.readMany_ofSource htext] at hverdict
    apply hverdict.unique
    apply Verdict.duplicate
    rw [hnames]
    exact h.firstRepeat hp hq

/-- A tag whose name is a lone `#`. -/
def hashTagged : Program :=
  .ofInstructions #[.tag "#", ⟨.assign, some (.literal 1), false, none⟩]

def endlessLoop : Program :=
  .ofInstructions #[⟨.putChar, none, true, none⟩, .tag "b", ⟨.jump, some (.tag "b" 1), false, none⟩]

def twoTags : Program :=
  .ofInstructions #[⟨.pop, none, false, none⟩, .tag "c", .tag "a"]

def threeTags : Program :=
  .ofInstructions #[.tag "b", .tag "a", .tag "c", ⟨.jump, some (.tag "a" 1), false, none⟩]

theorem assemble_append_at_seam :
    (assemble ":#: giv1" = .ok hashTagged ∧ assemble "oc*; :b: jmp:b:" = .ok endlessLoop ∧
      assemble (":#: giv1" ++ "oc*; :b: jmp:b:") = .ok (hashTagged.append endlessLoop)) ∧
    (assemble "pop #one# :c: :a:" = .ok twoTags ∧
      assemble ":b: :a: #two# :c: jmp:a:" = .ok threeTags ∧
      ∃ name first second, twoTags.FirstShared threeTags name first second ∧
        assemble ("pop #one# :c: :a:" ++ ":b: :a: #two# :c: jmp:a:") =
          .error (.duplicateTag name first (twoTags.size + second))) := by
  have hhash : assemble ":#: giv1" = .ok hashTagged := by decide +kernel
  have hloop : assemble "oc*; :b: jmp:b:" = .ok endlessLoop := by decide +kernel
  have htwo : assemble "pop #one# :c: :a:" = .ok twoTags := by decide +kernel
  have hthree : assemble ":b: :a: #two# :c: jmp:a:" = .ok threeTags := by decide +kernel
  have hdisjoint : hashTagged.DisjointTags endlessLoop := by
    intro name
    by_cases hname : name = "b"
    · subst hname
      exact Or.inl (by decide +kernel)
    · right
      simp [Program.tag?, endlessLoop, Program.ofInstructions, TagTable.addAll, Instruction.tag,
        Ne.symm hname]
  have hshared : ¬twoTags.DisjointTags threeTags := by
    intro hdisjoint
    exact absurd (hdisjoint "a") (by decide +kernel)
  refine ⟨⟨hhash, hloop, ?_⟩, htwo, hthree, ?_⟩
  · exact (assemble_append hhash hloop (Or.inr (by decide))).1 hdisjoint
  · exact (assemble_append htwo hthree (Or.inl (by decide))).2 hshared

end AccumulatorMachine
