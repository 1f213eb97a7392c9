import AccumulatorMachine.Proofs.Debugging
import AccumulatorMachine.Proofs.Utf8Lines
import Mathlib.Order.Bounds.Basic

/-!
A reset takes a session back to its start: what is written behind it is what a new session writes for
the same lines. The reason is that the tally of a session determines all its later answers, and a reset
clears the tally.
-/
namespace AccumulatorMachine

theorem Machine.Makes.unique {m : Machine} {stops : Step → Bool} {count made made' : Nat}
    {written written' : String} (h : m.Makes stops count made written)
    (h' : m.Makes stops count made' written') : made = made' ∧ written = written' := by
  obtain rfl : made = made' := h.isLeast.unique h'.isLeast
  have hcontents := h.contents.symm.trans h'.contents
  rw [String.append_right_inj] at hcontents
  exact ⟨rfl, hcontents⟩

namespace Debugger

theorem Closes.unique {m : Machine} {limit made : Nat} {closing closing' : String}
    (hmade : m.CanEnd Step.breakpoint limit made) (h : Closes m limit made closing)
    (h' : Closes m limit made closing') : closing = closing' := by
  cases hlast : (m.steps made).1.getLast?.any Step.breakpoint with
  | true => rw [h.breakpoint hlast, h'.breakpoint hlast]
  | false =>
    cases hend : (m.steps made).2.atEnd with
    | true => rw [h.finished hlast hend, h'.finished hlast hend]
    | false =>
      have hall := hmade.eq_count hend hlast
      rw [h.stopped.mpr ⟨hall, hlast, hend⟩, h'.stopped.mpr ⟨hall, hlast, hend⟩]

section Tallies

variable {fresh : Machine} {limit : Nat} {t t₁ t₂ : Tally} {line text₁ text₂ : String}

theorem Answered.ne_quit (h : Answered fresh limit line t text₁ t₁) :
    DebugCommand.ofLine line ≠ .ok .quit := by
  intro hquit
  cases h with
  | _ hline => cases hline.symm.trans hquit

theorem Answered.unique (h₁ : Answered fresh limit line t text₁ t₁)
    (h₂ : Answered fresh limit line t text₂ t₂) : text₁ = text₂ ∧ t₁ = t₂ := by
  cases h₁ with
  | step hline₁ hmakes₁ =>
    cases h₂ with
    | step hline₂ hmakes₂ =>
      obtain rfl := DebugCommand.step.inj (Except.ok.inj (hline₁.symm.trans hline₂))
      obtain ⟨rfl, rfl⟩ := hmakes₁.unique hmakes₂
      exact ⟨rfl, rfl⟩
    | _ hline₂ => cases hline₁.symm.trans hline₂
  | proceed hline₁ hmakes₁ hcloses₁ =>
    cases h₂ with
    | proceed hline₂ hmakes₂ hcloses₂ =>
      obtain ⟨rfl, rfl⟩ := hmakes₁.unique hmakes₂
      obtain rfl := hcloses₁.unique hmakes₁.isLeast.1 hcloses₂
      exact ⟨rfl, rfl⟩
    | _ hline₂ => cases hline₁.symm.trans hline₂
  | reset hline₁ =>
    cases h₂ with
    | reset hline₂ => exact ⟨rfl, rfl⟩
    | _ hline₂ => cases hline₁.symm.trans hline₂
  | status hline₁ =>
    cases h₂ with
    | status hline₂ => exact ⟨rfl, rfl⟩
    | _ hline₂ => cases hline₁.symm.trans hline₂
  | list hline₁ =>
    cases h₂ with
    | list hline₂ => exact ⟨rfl, rfl⟩
    | _ hline₂ => cases hline₁.symm.trans hline₂
  | help hline₁ =>
    cases h₂ with
    | help hline₂ => exact ⟨rfl, rfl⟩
    | _ hline₂ => cases hline₁.symm.trans hline₂
  | rejected hline₁ =>
    cases h₂ with
    | rejected hline₂ =>
      obtain rfl := Except.error.inj (hline₁.symm.trans hline₂)
      exact ⟨rfl, rfl⟩
    | _ hline₂ => cases hline₁.symm.trans hline₂

theorem Converses.unique {d₁ d₂ : Debugger} {raws : List (List UInt8)} {tr₁ tr₂ : Transcript}
    (h₁ : Converses fresh limit d₁ t raws tr₁) (h₂ : Converses fresh limit d₂ t raws tr₂) :
    tr₁ = tr₂ := by
  induction h₁ generalizing d₂ tr₂ with
  | ends hprompt₁ =>
    cases h₂ with
    | ends hprompt₂ => rfl
  | quits hprompt₁ hraw₁ hline₁ =>
    cases h₂ with
    | quits hprompt₂ hraw₂ hline₂ => rfl
    | breaksOff hprompt₂ hraw₂ => cases hraw₁.symm.trans hraw₂
    | answers hprompt₂ hraw₂ hanswer₂ hanswered₂ hrest₂ =>
      obtain rfl := Except.ok.inj (hraw₁.symm.trans hraw₂)
      exact absurd hline₁ hanswered₂.ne_quit
  | breaksOff hprompt₁ hraw₁ =>
    cases h₂ with
    | breaksOff hprompt₂ hraw₂ =>
      obtain rfl := Except.error.inj (hraw₁.symm.trans hraw₂)
      rfl
    | quits hprompt₂ hraw₂ hline₂ => cases hraw₁.symm.trans hraw₂
    | answers hprompt₂ hraw₂ hanswer₂ hanswered₂ hrest₂ => cases hraw₁.symm.trans hraw₂
  | answers hprompt₁ hraw₁ hanswer₁ hanswered₁ hrest₁ ih =>
    cases h₂ with
    | quits hprompt₂ hraw₂ hline₂ =>
      obtain rfl := Except.ok.inj (hraw₁.symm.trans hraw₂)
      exact absurd hline₂ hanswered₁.ne_quit
    | breaksOff hprompt₂ hraw₂ => cases hraw₁.symm.trans hraw₂
    | answers hprompt₂ hraw₂ hanswer₂ hanswered₂ hrest₂ =>
      obtain rfl := Except.ok.inj (hraw₁.symm.trans hraw₂)
      obtain ⟨rfl, rfl⟩ := hanswered₁.unique hanswered₂
      obtain rfl := ih hrest₂
      rfl

end Tallies

/-- The lines of the bytes are these texts. -/
def Spells (bytes : List UInt8) (lines : List String) : Prop :=
  (Utf8.lines bytes).map lineText = lines.map .ok

/-- Without line feeds in them, all lists of texts can be the lines of a session. -/
theorem spells_encodeLines {lines : List String} (h : ∀ line ∈ lines, '\n' ∉ line.toList) :
    Spells (Utf8.encodeLines lines) lines := by
  have htext (line : String) : lineText (Utf8.encode line ++ [13, 10]) = .ok line := by
    unfold lineText
    rw [Utf8.dropLineEnd_append, Utf8.decode_encode]
  unfold Spells
  rw [Utf8.lines_encodeLines h, List.map_map]
  apply List.map_congr_left
  intro line _
  exact htext line

theorem Spells.split {bytes : List UInt8} {before after : List String} {line : String}
    (h : Spells bytes (before ++ line :: after)) : ∃ raws raw later,
      Utf8.lines bytes = raws ++ raw :: later ∧ raws.map lineText = before.map .ok ∧
      lineText raw = .ok line ∧ later.map lineText = after.map .ok := by
  unfold Spells at h
  rw [List.map_append, List.map_eq_append_iff] at h
  obtain ⟨raws, others, hlines, hbefore, hothers⟩ := h
  obtain ⟨raw, later, rfl, hraw, hafter⟩ := List.map_eq_cons_iff.mp hothers
  exact ⟨raws, raw, later, hlines, hbefore, hraw, hafter⟩

/-- A session does not tell lines with the same text apart. -/
theorem converse_congr {raws raws' : List (List UInt8)}
    (h : raws.map lineText = raws'.map lineText) (d : Debugger) (written : String) :
    d.converse written raws = d.converse written raws' := by
  induction raws generalizing raws' d written with
  | nil => rw [List.map_eq_nil_iff.mp h.symm]
  | cons raw later ih =>
    obtain ⟨raw', later', rfl, hraw, hlater⟩ := List.map_eq_cons_iff.mp h.symm
    have hanswer : d.answerBytes raw' = d.answerBytes raw := by
      unfold answerBytes
      rw [hraw]
    rw [converse, converse, hanswer]
    cases d.answerBytes raw with
    | more text next => exact ih hlater.symm next _
    | finish => rfl
    | fail error => rfl

section Sessions

variable {program : Program} {input : String} {limit : Nat} {d d' : Debugger} {t : Tally}
  {raws : List (List UInt8)} {lines : List String}

/-- Debuggers with the same tally go on in the same way. -/
theorem AtPrompt.converse_eq (h : AtPrompt (.fresh program input) limit d t)
    (h' : AtPrompt (.fresh program input) limit d' t) (written : String)
    (raws : List (List UInt8)) : d.converse written raws = d'.converse written raws := by
  obtain ⟨transcript, hconverses, hwritten⟩ := exists_converses h raws
  obtain ⟨transcript', hconverses', hwritten'⟩ := exists_converses h' raws
  rw [hwritten, hwritten', hconverses.unique hconverses']

theorem AtPrompt.failure_eq_none (h : AtPrompt (.fresh program input) limit d t)
    (hraws : raws.map lineText = lines.map .ok) (written : String) :
    (d.converse written raws).failure = none := by
  obtain ⟨transcript, hconverses, hwritten⟩ := exists_converses h raws
  rw [hwritten]
  apply hconverses.failure_eq_none
  intro raw hraw
  have hmem : lineText raw ∈ lines.map Except.ok := hraws ▸ List.mem_map_of_mem hraw
  obtain ⟨line, -, hline⟩ := List.mem_map.mp hmem
  exact ⟨line, hline.symm⟩

/-- Lines that do not quit lead from one prompt to another, whatever follows them. -/
theorem AtPrompt.passes (h : AtPrompt (.fresh program input) limit d t)
    (hraws : raws.map lineText = lines.map .ok)
    (hquit : ∀ line ∈ lines, DebugCommand.ofLine line ≠ .ok .quit) :
    ∃ next t' text, AtPrompt (.fresh program input) limit next t' ∧
      ∀ written later, d.converse written (raws ++ later) =
        next.converse (written ++ text) later := by
  -- What is written before the lines and what is answered after them is left open, so that the answers
  -- to the first line can be put in front.
  induction lines generalizing raws d t with
  | nil =>
    obtain rfl := List.map_eq_nil_iff.mp hraws
    refine ⟨d, t, "", h, fun written later => ?_⟩
    rw [List.nil_append, String.append_empty]
  | cons line lines ih =>
    obtain ⟨raw, laterRaws, rfl, hraw, hlater⟩ := List.map_eq_cons_iff.mp hraws
    rcases h.answer line with ⟨hline, -⟩ | ⟨text, next, t', hanswer, -, hnext⟩
    · exact absurd hline (hquit line List.mem_cons_self)
    · obtain ⟨last, t'', rest, hlast, hrest⟩ := ih hnext hlater fun other hother =>
        hquit other (List.mem_cons_of_mem line hother)
      refine ⟨last, t'', prompt ++ text ++ rest, hlast, fun written later => ?_⟩
      rw [List.cons_append, converse_of_answer hraw hanswer, hrest]
      simp only [String.append_assoc]

/-- Behind a reset a session goes on like a new one. -/
theorem AtPrompt.converse_reset (h : AtPrompt (.fresh program input) limit d t) {raw : List UInt8}
    {line : String} (hraw : lineText raw = .ok line)
    (hline : DebugCommand.ofLine line = .ok .reset) (written : String)
    (later : List (List UInt8)) :
    d.converse written (raw :: later) = (start program (.ofString input) limit).converse
      (written ++ prompt ++ "Program reset\n") later := by
  have hreset : d.perform .reset =
      .ok ("Program reset\n", { d with runner := d.runner.reset.rewindInput }) := rfl
  rw [converse_of_answer hraw (answer_of_perform hline (by simp) hreset)]
  exact (h.rewind rfl rfl rfl).converse_eq (atPrompt_start program input limit) _ later

/-- All behind the first line. -/
def Transcript.body (transcript : Transcript) : String :=
  .ofList ((transcript.text.toList.dropWhile (· != '\n')).drop 1)

theorem banner_eq (d : Debugger) : ∃ line, '\n' ∉ line ∧ d.banner.toList = line ++ ['\n'] := by
  have hdigits : '\n' ∉ Nat.toDigits 10 d.listing.entries.length := by
    intro hmem
    have hdigit := Nat.isDigit_of_mem_toDigits (by decide) (by decide) hmem
    cases hdigit
  refine ⟨Nat.toDigits 10 d.listing.entries.length ++
    " instructions loaded, type 'help' for commands".toList, ?_, ?_⟩
  · rw [List.mem_append, not_or]
    exact ⟨hdigits, by decide⟩
  · have hbanner : d.banner = String.ofList (Nat.toDigits 10 d.listing.entries.length) ++
        " instructions loaded, type 'help' for commands\n" := rfl
    rw [hbanner, String.toList_append, String.toList_ofList, List.append_assoc]
    rfl

theorem body_banner_append (d : Debugger) (text : String) (failure : Option SessionError) :
    (Transcript.mk (d.banner ++ text) failure).body = text := by
  obtain ⟨line, hline, hbanner⟩ := d.banner_eq
  have hpass : ∀ c ∈ line, (c != '\n') = true := by
    intro c hc
    rw [bne_iff_ne]
    rintro rfl
    exact hline hc
  unfold Transcript.body
  dsimp only
  rw [String.toList_append, hbanner, List.append_assoc, List.dropWhile_append_of_pos hpass]
  exact String.ofList_toList

/-- A reset erases what came before it. The session on the lines before a reset, the reset and the
lines behind it writes what the lines before write alone, then that it was reset, then what the lines
behind write alone in a new session. None of the three breaks off. -/
theorem session_reset (program : Program) (input : String) (maxSteps : Nat)
    {before after : List String}
    (hquit : ∀ line ∈ before, DebugCommand.ofLine line ≠ .ok .quit) :
    ((∀ line ∈ before ++ after, '\n' ∉ line.toList) → ∃ first second whole,
      Spells first before ∧ Spells second after ∧ Spells whole (before ++ "reset" :: after)) ∧
    ∀ first second whole, Spells first before → Spells second after →
      Spells whole (before ++ "reset" :: after) →
      ((start program (.ofString input) maxSteps).session whole).body =
        ((start program (.ofString input) maxSteps).session first).body ++ "Program reset\n" ++
          ((start program (.ofString input) maxSteps).session second).body ∧
      ∀ bytes ∈ [first, second, whole],
        ((start program (.ofString input) maxSteps).session bytes).failure = none := by
  have hstart := atPrompt_start program input maxSteps
  constructor
  · intro hlines
    have hmiddle : '\n' ∉ "reset".toList := by decide
    refine ⟨_, _, _, spells_encodeLines fun line hline => hlines line ?_,
      spells_encodeLines fun line hline => hlines line ?_, spells_encodeLines ?_⟩
    · exact List.mem_append_left after hline
    · exact List.mem_append_right before hline
    · simp only [List.mem_append, List.mem_cons] at hlines ⊢
      rintro line (hline | rfl | hline)
      · exact hlines line (Or.inl hline)
      · exact hmiddle
      · exact hlines line (Or.inr hline)
  · intro first second whole hfirst hsecond hwhole
    obtain ⟨raws, raw, later, hlines, hbefore, hraw, hafter⟩ := hwhole.split
    have hreset : DebugCommand.ofLine "reset" = .ok .reset := by decide +kernel
    obtain ⟨next, t, text, hnext, hpasses⟩ := hstart.passes hbefore hquit
    obtain ⟨transcript, -, hwritten⟩ := exists_converses hstart later
    constructor
    · unfold session
      rw [hlines, hpasses, hnext.converse_reset hraw hreset, hwritten,
        converse_congr (hfirst.trans hbefore.symm), converse_congr (hsecond.trans hafter.symm),
        ← List.append_nil raws, hpasses, converse, hwritten]
      simp only [String.append_assoc, body_banner_append]
    · simp only [List.mem_cons, List.not_mem_nil, or_false]
      rintro bytes (rfl | rfl | rfl)
      · exact hstart.failure_eq_none hfirst _
      · exact hstart.failure_eq_none hsecond _
      · exact hstart.failure_eq_none hwhole _

/-- The lines `s 2`, `reset` and `c`. -/
def resettingLines : List UInt8 :=
  [115, 32, 50, 13, 10, 114, 101, 115, 101, 116, 10, 99]

theorem printing_reset :
    ((start printing (.ofString "a") 3).session resettingLines).body =
      ((start printing (.ofString "a") 3).session [115, 32, 50]).body ++ "Program reset\n" ++
        ((start printing (.ofString "a") 3).session [99, 10]).body ∧
    ((start printing (.ofString "a") 3).session [99, 10]).body =
      "(alpha) Output: a\nBreakpoint: A: 97 S: [] Index: 2\n(alpha) " := by
  have hquit : ∀ line ∈ ["s 2"], DebugCommand.ofLine line ≠ .ok .quit := by
    intro line hline
    obtain rfl := List.mem_singleton.mp hline
    decide +kernel
  have hfirst : Spells [115, 32, 50] ["s 2"] := by
    unfold Spells
    decide +kernel
  have hsecond : Spells [99, 10] ["c"] := by
    unfold Spells
    decide +kernel
  have hwhole : Spells resettingLines (["s 2"] ++ "reset" :: ["c"]) := by
    unfold Spells
    decide +kernel
  obtain ⟨hbody, -⟩ := (session_reset printing "a" 3 hquit).2 _ _ _ hfirst hsecond hwhole
  exact ⟨hbody, by decide +kernel⟩

end Sessions

end Debugger

end AccumulatorMachine
