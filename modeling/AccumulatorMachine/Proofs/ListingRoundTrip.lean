import AccumulatorMachine.Listing.Json
import AccumulatorMachine.Proofs.JsonText

/-!
Listings are read back from their JSON text. The only listings for which this fails are those with a
number that is no word; a listing of a program whose numbers are words has none, and neither has a
listing that was read from a text.
-/
namespace AccumulatorMachine

theorem mapM_eq_some_map {α β : Type} {f : α → Option β} {g : α → β} {items : List α}
    (h : ∀ item ∈ items, f item = some (g item)) : items.mapM f = some (items.map g) := by
  induction items with
  | nil => rfl
  | cons item items ih =>
    have hitem : f item = some (g item) := h item List.mem_cons_self
    have hitems := ih fun other hother => h other (List.mem_cons_of_mem _ hother)
    rw [List.mapM_cons, hitem, hitems]
    rfl

theorem exists_of_mem_mapM {α β : Type} {f : α → Option β} {items : List α} {results : List β}
    (h : items.mapM f = some results) {result : β} (hmem : result ∈ results) :
    ∃ item ∈ items, f item = some result := by
  induction items generalizing results with
  | nil =>
    cases h
    cases hmem
  | cons item items ih =>
    rw [List.mapM_cons] at h
    obtain ⟨first, hfirst, h⟩ := Option.bind_eq_some_iff.mp h
    obtain ⟨others, hothers, h⟩ := Option.bind_eq_some_iff.mp h
    cases h
    rcases List.mem_cons.mp hmem with rfl | hmem
    · exact ⟨item, List.mem_cons_self, hfirst⟩
    · obtain ⟨other, hother, hresult⟩ := ih hothers hmem
      exact ⟨other, List.mem_cons_of_mem _ hother, hresult⟩

namespace Json

theorem nat?_ofNat {n : Nat} (h : n < Decimal.wordLimit) : (ofNat n).nat? = some n := by
  show (Decimal.nat? (Decimal.digits n)).filter (· < Decimal.wordLimit) = some n
  rw [Decimal.nat?_digits, Option.filter_some, if_pos (decide_eq_true h)]

theorem lt_of_nat? {v : Json} {n : Nat} (h : v.nat? = some n) : n < Decimal.wordLimit := by
  unfold nat? at h
  split at h
  · exact of_decide_eq_true (Option.filter_eq_some_iff.mp h).2
  · cases h

/-- A value that is not written as `null` can be left out. -/
theorem option?_ofOption {α : Type} {encode : α → Json} {decode : Json → Option α}
    {value : Option α} (h : ∀ a, value = some a → encode a ≠ .null ∧ decode (encode a) = some a) :
    (ofOption encode value).option? decode = some value := by
  cases value with
  | none => rfl
  | some a =>
    obtain ⟨hnull, hdecode⟩ := h a rfl
    show (encode a).option? decode = some (some a)
    unfold option?
    split
    · exact absurd ‹_› hnull
    · rw [hdecode]
      rfl

theorem eq_some_of_option? {α : Type} {decode : Json → Option α} {v : Json} {a : α}
    (h : v.option? decode = some (some a)) : decode v = some a := by
  unfold option? at h
  split at h
  · cases h
  · obtain ⟨b, hb, heq⟩ := Option.map_eq_some_iff.mp h
    rwa [← Option.some.inj heq]

theorem filter_field_eq {fields : List (String × Json)} (h : (fields.map Prod.fst).Nodup)
    {field : String × Json} (hmem : field ∈ fields) :
    (fields.map fun other => (some other.1, other.2)).filter
      (fun other => other.1 == some field.1) = [(some field.1, field.2)] := by
  induction fields with
  | nil => cases hmem
  | cons first fields ih =>
    rw [List.map_cons, List.nodup_cons] at h
    rw [List.map_cons]
    rcases List.mem_cons.mp hmem with rfl | hmem
    · have hlater : (fields.map fun other => ((some other.1 : Option String), other.2)).filter
          (fun other => other.1 == some field.1) = [] := by
        apply List.filter_eq_nil_iff.mpr
        intro other hother heq
        obtain ⟨later, hlater, rfl⟩ := List.mem_map.mp hother
        have hname : later.1 = field.1 := by simpa using heq
        exact h.1 (hname ▸ List.mem_map_of_mem hlater)
      rw [List.filter_cons_of_pos (by simp), hlater]
    · have hne : first.1 ≠ field.1 := fun heq => h.1 (heq ▸ List.mem_map_of_mem hmem)
      rw [List.filter_cons_of_neg (by simpa using hne)]
      exact ih h.2 hmem

/-- A record with distinct names has the values that it was made of. -/
theorem fieldValues?_record {fields : List (String × Json)} (h : (fields.map Prod.fst).Nodup) :
    fieldValues? (fields.map fun field => (some field.1, field.2)) (fields.map Prod.fst) =
      some (fields.map fun field => some field.2) := by
  have hnames : ¬(fields.map fun field => ((some field.1 : Option String), field.2)).any
      (fun field => field.1.isNone) = true := by
    simp
  unfold fieldValues?
  rw [if_neg hnames, List.mapM_map]
  apply mapM_eq_some_map
  intro field hmem
  rw [Function.comp_apply, filter_field_eq h hmem]

theorem natural_ofNat (n : Nat) : (ofNat n).Natural :=
  .number n

theorem natural_ofString (text : String) : (ofString text).Natural :=
  .string _

theorem natural_ofOption {α : Type} {encode : α → Json} (h : ∀ a, (encode a).Natural)
    (value : Option α) : (ofOption encode value).Natural := by
  cases value with
  | none => exact .null
  | some a => exact h a

theorem natural_record {fields : List (String × Json)} (h : ∀ field ∈ fields, field.2.Natural) :
    (record fields).Natural := by
  apply Natural.object
  intro field hmem
  obtain ⟨original, horiginal, rfl⟩ := List.mem_map.mp hmem
  exact h original horiginal

end Json

/-- The numbers of an entry are words. -/
structure ListingEntry.InRange (entry : ListingEntry) : Prop where
  index_lt : entry.index < Decimal.wordLimit
  target_lt : ∀ target, entry.target = some target → target < Decimal.wordLimit

namespace ListingEntry

theorem natural_toJson (entry : ListingEntry) : entry.toJson.Natural := by
  apply Json.natural_record
  simp only [List.forall_mem_cons]
  refine ⟨Json.natural_ofNat _, Json.natural_ofString _, Json.natural_ofString _, ?_, ?_,
    .bool _, ?_⟩
  · exact Json.natural_ofOption Json.natural_ofString _
  · exact Json.natural_ofOption Json.natural_ofNat _
  · exact List.forall_mem_nil _

theorem ofJson?_toJson {entry : ListingEntry} (h : entry.InRange) :
    ofJson? entry.toJson = some entry := by
  have hindex : (Json.ofNat entry.index).nat? = some entry.index := Json.nat?_ofNat h.index_lt
  have hoperand : (Json.ofOption .ofString entry.operand).option? Json.string? =
      some entry.operand :=
    Json.option?_ofOption fun _ _ => ⟨Json.noConfusion, rfl⟩
  have htarget : (Json.ofOption .ofNat entry.target).option? Json.nat? = some entry.target :=
    Json.option?_ofOption fun target heq =>
      ⟨Json.noConfusion, Json.nat?_ofNat (h.target_lt target heq)⟩
  have hnames : ["index", "source", "opcode", "operand", "target", "breakpoint"].Nodup := by decide
  have hvalues := @Json.fieldValues?_record [("index", .ofNat entry.index),
    ("source", .ofString entry.source), ("opcode", .ofString entry.opcode),
    ("operand", .ofOption .ofString entry.operand), ("target", .ofOption .ofNat entry.target),
    ("breakpoint", .bool entry.breakpoint)] hnames
  simp only [List.map_cons, List.map_nil] at hvalues
  unfold ofJson? toJson Json.record
  simp only [List.map_cons, List.map_nil, hvalues, Option.getD_some]
  unfold ofValues?
  rw [hindex, hoperand, htarget]
  rfl

theorem inRange_of_ofValues? {index source opcode operand target breakpoint : Json}
    {entry : ListingEntry}
    (h : ofValues? index source opcode operand target breakpoint = some entry) : entry.InRange := by
  unfold ofValues? at h
  split at h
  · rename_i hindex _ _ _ htarget _
    cases h
    refine ⟨Json.lt_of_nat? hindex, ?_⟩
    rintro target rfl
    exact Json.lt_of_nat? (Json.eq_some_of_option? htarget)
  · cases h

theorem inRange_of_ofJson? {v : Json} {entry : ListingEntry} (h : ofJson? v = some entry) :
    entry.InRange := by
  unfold ofJson? at h
  split at h
  · exact inRange_of_ofValues? h
  · split at h
    · exact inRange_of_ofValues? h
    · cases h
  · cases h

end ListingEntry

/-- The indices of a table are words. -/
def TagTable.InRange (tags : TagTable) : Prop :=
  ∀ (name : String) (index : Nat), tags[name]? = some index → index < Decimal.wordLimit

namespace Listing

theorem tagsOfFields?_fields {tags : TagTable} {entries : List (String × Nat)}
    (h : ∀ entry ∈ entries, entry.2 < Decimal.wordLimit) :
    tagsOfFields? tags (entries.map fun entry => (some entry.1, Json.ofNat entry.2)) =
      some (entries.foldl (fun read entry => read.insert entry.1 entry.2) tags) := by
  induction entries generalizing tags with
  | nil => rfl
  | cons entry entries ih =>
    have hindex : (Json.ofNat entry.2).nat? = some entry.2 :=
      Json.nat?_ofNat (h entry List.mem_cons_self)
    rw [List.map_cons, tagsOfFields?, hindex, List.foldl_cons]
    exact ih fun other hother => h other (List.mem_cons_of_mem _ hother)

/-- A table is made again from its list of entries. -/
theorem ofList_toList (tags : TagTable) : Std.ExtTreeMap.ofList tags.toList = tags := by
  apply Std.ExtTreeMap.ext_getElem?
  intro name
  cases hindex : tags[name]? with
  | some index =>
    have hmem : (name, index) ∈ tags.toList :=
      Std.ExtTreeMap.mem_toList_iff_getElem?_eq_some.mpr hindex
    exact Std.ExtTreeMap.getElem?_ofList_of_mem Std.ReflCmp.compare_self
      Std.ExtTreeMap.distinct_keys_toList hmem
  | none =>
    apply Std.ExtTreeMap.getElem?_ofList_of_contains_eq_false
    rw [← Bool.not_eq_true, List.contains_iff_mem, List.mem_map]
    rintro ⟨⟨other, index⟩, hmem, rfl⟩
    rw [Std.ExtTreeMap.mem_toList_iff_getElem?_eq_some.mp hmem] at hindex
    cases hindex

theorem tagsOfFields?_toList {tags : TagTable} (h : tags.InRange) :
    tagsOfFields? ∅ (tags.toList.map fun tag => (some tag.1, Json.ofNat tag.2)) = some tags := by
  have hentries : ∀ tag ∈ tags.toList, tag.2 < Decimal.wordLimit := by
    intro tag hmem
    exact h tag.1 tag.2 (Std.ExtTreeMap.mem_toList_iff_getElem?_eq_some.mp hmem)
  rw [tagsOfFields?_fields hentries, ← Std.ExtTreeMap.ofList_eq_foldl, ofList_toList]

theorem inRange_of_tagsOfFields? {fields : List (Option String × Json)} {tags read : TagTable}
    (htags : tags.InRange) (h : tagsOfFields? tags fields = some read) : read.InRange := by
  -- The table grows with each field, so the induction carries it.
  induction fields generalizing tags with
  | nil =>
    cases h
    exact htags
  | cons field fields ih =>
    obtain ⟨key, value⟩ := field
    cases key with
    | none => cases h
    | some key =>
      rw [tagsOfFields?] at h
      split at h
      · rename_i index hindex
        apply ih _ h
        intro name other hother
        rw [Std.ExtTreeMap.getElem?_insert] at hother
        split at hother
        · cases hother
          exact Json.lt_of_nat? hindex
        · exact htags name other hother
      · cases h

end Listing

/-- The numbers of a listing are words. -/
structure Listing.InRange (listing : Listing) : Prop where
  entries : ∀ entry ∈ listing.entries, entry.InRange
  tags : listing.tags.InRange

/-- The numbers of a program are words: it has no more instructions than there are words, and it
refers to words only. -/
structure Program.InRange (p : Program) : Prop where
  size_le : p.size ≤ Decimal.wordLimit
  target_lt : ∀ i ∈ p.instructions, ∀ operand target, i.operand = some operand →
    operand.target? = some target → target < Decimal.wordLimit
  tags : p.tags.InRange

namespace Listing

theorem natural_toJson (listing : Listing) : listing.toJson.Natural := by
  have hentries : (Json.array (listing.entries.map ListingEntry.toJson)).Natural := by
    apply Json.Natural.array
    intro item hmem
    obtain ⟨entry, -, rfl⟩ := List.mem_map.mp hmem
    exact entry.natural_toJson
  have htags : (Json.record (listing.tags.toList.map fun tag => (tag.1, .ofNat tag.2))).Natural := by
    apply Json.natural_record
    intro field hmem
    obtain ⟨tag, -, rfl⟩ := List.mem_map.mp hmem
    exact Json.natural_ofNat tag.2
  apply Json.natural_record
  simp only [List.forall_mem_cons]
  exact ⟨hentries, htags, List.forall_mem_nil _⟩

theorem ofJson?_toJson {listing : Listing} (h : listing.InRange) :
    ofJson? listing.toJson = some listing := by
  have hentries : (listing.entries.map ListingEntry.toJson).mapM ListingEntry.ofJson? =
      some listing.entries := by
    have hread := mapM_eq_some_map fun entry hmem =>
      ListingEntry.ofJson?_toJson (h.entries entry hmem)
    rw [List.map_id'] at hread
    rw [List.mapM_map]
    exact hread
  have htags := tagsOfFields?_toList h.tags
  have hnames : ["instructions", "tags"].Nodup := by decide
  have hvalues := @Json.fieldValues?_record
    [("instructions", .array (listing.entries.map ListingEntry.toJson)),
      ("tags", .record (listing.tags.toList.map fun tag => (tag.1, .ofNat tag.2)))] hnames
  simp only [List.map_cons, List.map_nil] at hvalues
  unfold ofJson? toJson
  rw [Json.record]
  simp only [List.map_cons, List.map_nil, hvalues]
  unfold ofValues? Json.record
  simp only [List.map_map, Function.comp_def, hentries, htags]

theorem ofJsonText?_of_inRange {listing : Listing} (h : listing.InRange) :
    ofJsonText? listing.jsonText = some listing := by
  have htext : Json.ofText? listing.jsonText = some listing.toJson :=
    Json.ofText?_pretty listing.natural_toJson 0
  unfold ofJsonText?
  rw [htext, Option.bind_some, ofJson?_toJson h]

theorem inRange_of_ofValues? {entries tags : Json} {listing : Listing}
    (h : ofValues? entries tags = some listing) : listing.InRange := by
  unfold ofValues? at h
  split at h
  · split at h
    · rename_i hentries htags
      cases h
      constructor
      · intro entry hmem
        obtain ⟨item, -, hitem⟩ := exists_of_mem_mapM hentries hmem
        exact ListingEntry.inRange_of_ofJson? hitem
      · exact inRange_of_tagsOfFields? (by simp [TagTable.InRange]) htags
    · cases h
  · cases h

theorem inRange_of_ofJsonText? {text : String} {listing : Listing}
    (h : ofJsonText? text = some listing) : listing.InRange := by
  obtain ⟨v, -, h⟩ := Option.bind_eq_some_iff.mp h
  unfold ofJson? at h
  split at h
  · exact inRange_of_ofValues? h
  · split at h
    · exact inRange_of_ofValues? h
    · cases h
  · cases h

theorem inRange_ofProgram {p : Program} (h : p.InRange) : (ofProgram p).InRange := by
  constructor
  · intro entry hmem
    obtain ⟨index, hlt, rfl⟩ := List.mem_mapIdx.mp hmem
    constructor
    · have hsize : index < p.size := by simpa [Program.size] using hlt
      exact Nat.lt_of_lt_of_le hsize h.size_le
    · intro target htarget
      obtain ⟨operand, hoperand, htarget⟩ := Option.bind_eq_some_iff.mp htarget
      exact h.target_lt _ (by simp) operand target hoperand htarget
  · exact h.tags

/-- A listing is read back from its JSON text if and only if its numbers are words. So are those of
the listing of a program with words for its numbers, and those of a listing that was read. -/
theorem jsonText_round_trip :
    (∀ listing : Listing, ofJsonText? listing.jsonText = some listing ↔ listing.InRange) ∧
    (∀ p : Program, p.InRange → ofJsonText? (ofProgram p).jsonText = some (ofProgram p)) ∧
    ∀ (text : String) (listing : Listing), ofJsonText? text = some listing →
      ofJsonText? listing.jsonText = some listing := by
  refine ⟨?_, ?_, ?_⟩
  · intro listing
    exact ⟨inRange_of_ofJsonText?, ofJsonText?_of_inRange⟩
  · intro p hp
    exact ofJsonText?_of_inRange (inRange_ofProgram hp)
  · intro text listing hread
    exact ofJsonText?_of_inRange (inRange_of_ofJsonText? hread)

/-- The greatest word as an index and as a target, and texts with quotes, backslashes, control
characters and letters outside of the basic plane. -/
def extreme : Listing where
  entries :=
    [⟨18446744073709551615, "\"\\", "\n\x01", some "é\x7f𝄞", some 18446744073709551615, true⟩,
      ⟨0, "", "tab\t", none, none, false⟩]
  tags := Std.ExtTreeMap.insert ∅ "\"#\"" 18446744073709551615

/-- A jump to a tag with the greatest word for its index. -/
def farJump : Program :=
  ⟨#[⟨.jump, some (.tag "é" 18446744073709551615), true, none⟩], ∅⟩

/-- A listing in other clothes: arrays for objects, blanks, and letters written by their codes. -/
def escapedText : String :=
  "[ [[7, \"\\u0041\", \"\\ud834\\udd1e\", null, 2, true]], \x7b\x7d]"

def escaped : Listing :=
  ⟨[⟨7, "A", "𝄞", none, some 2, true⟩], ∅⟩

theorem jsonText_round_trip_extreme :
    (extreme.InRange ∧ ofJsonText? extreme.jsonText = some extreme) ∧
    (farJump.InRange ∧ ofJsonText? (ofProgram farJump).jsonText = some (ofProgram farJump)) ∧
    ofJsonText? escapedText = some escaped ∧ ofJsonText? escaped.jsonText = some escaped := by
  have hextreme : extreme.InRange := by
    constructor
    · simp only [extreme, List.forall_mem_cons]
      refine ⟨⟨by decide, ?_⟩, ⟨by decide, ?_⟩, List.forall_mem_nil _⟩
      · rintro _ ⟨⟩
        decide
      · rintro _ ⟨⟩
    · intro name index hindex
      rw [extreme, Std.ExtTreeMap.getElem?_insert] at hindex
      split at hindex
      · cases hindex
        decide
      · simp at hindex
  have hfar : farJump.InRange := by
    refine ⟨by decide, ?_, by simp [farJump, TagTable.InRange]⟩
    intro i hi operand target hoperand htarget
    rw [farJump, List.mem_toArray, List.mem_singleton] at hi
    subst hi
    cases hoperand
    cases htarget
    decide
  have hread : ofJsonText? escapedText = some escaped := by
    decide +kernel
  obtain ⟨hlisting, hlistings, hagain⟩ := jsonText_round_trip
  exact ⟨⟨hextreme, (hlisting extreme).mpr hextreme⟩, ⟨hfar, hlistings farJump hfar⟩, hread,
    hagain escapedText escaped hread⟩

end Listing

end AccumulatorMachine
