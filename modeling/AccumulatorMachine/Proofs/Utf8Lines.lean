import AccumulatorMachine.Text.Utf8

/-!
Every text can be written as bytes that are read back as that text, and every list of lines as bytes
that are split into these lines.
-/
namespace AccumulatorMachine.Utf8

def encode (text : String) : List UInt8 :=
  text.toList.flatMap String.utf8EncodeChar

/-- The bytes of lines, each of which a carriage return and a line feed end. -/
def encodeLines (lines : List String) : List UInt8 :=
  lines.flatMap fun line => encode line ++ [13, 10]

theorem start_of_lt {byte : Nat} (h : byte < 0x80) : start byte = .char byte :=
  if_pos h

theorem start_two {byte : Nat} (hlow : 0xC2 ≤ byte) (hhigh : byte < 0xE0) :
    start byte = .longer ⟨1, 1, 0x80, 0xBF, byte - 0xC0⟩ := by
  unfold start
  rw [if_neg (by omega), if_neg (by omega), if_pos hhigh]

theorem start_three {byte : Nat} (hlow : 0xE0 ≤ byte) (hhigh : byte < 0xF0) :
    start byte = .longer ⟨1, 2, if byte = 0xE0 then 0xA0 else 0x80,
      if byte = 0xED then 0x9F else 0xBF, byte - 0xE0⟩ := by
  by_cases hfirst : byte = 0xE0
  · subst hfirst
    rfl
  · by_cases hsurrogates : byte = 0xED
    · subst hsurrogates
      rfl
    · unfold start
      rw [if_neg (by omega), if_neg (by omega), if_neg (by omega), if_neg hfirst,
        if_neg hsurrogates, if_pos hhigh, if_neg hfirst, if_neg hsurrogates]

theorem start_four {byte : Nat} (hlow : 0xF0 ≤ byte) (hhigh : byte ≤ 0xF4) :
    start byte = .longer ⟨1, 3, if byte = 0xF0 then 0x90 else 0x80,
      if byte = 0xF4 then 0x8F else 0xBF, byte - 0xF0⟩ := by
  by_cases hfirst : byte = 0xF0
  · subst hfirst
    rfl
  · by_cases hlast : byte = 0xF4
    · subst hlast
      rfl
    · unfold start
      rw [if_neg (by omega), if_neg (by omega), if_neg (by omega), if_neg (by omega),
        if_neg (by omega), if_neg (by omega), if_neg hfirst, if_pos (by omega), if_neg hfirst,
        if_neg hlast]

variable {offset : Nat} {done : List Char} {p : Pending} {byte : UInt8} {rest : List UInt8}

theorem decodeFrom_char {code : Nat} (h : start byte.toNat = .char code) :
    decodeFrom offset none done (byte :: rest) =
      decodeFrom (offset + 1) none (Char.ofNat code :: done) rest := by
  rw [decodeFrom, h]

theorem decodeFrom_longer (h : start byte.toNat = .longer p) :
    decodeFrom offset none done (byte :: rest) = decodeFrom (offset + 1) (some p) done rest := by
  rw [decodeFrom, h]

theorem decodeFrom_more (howed : p.owed ≠ 1) (hlow : p.low ≤ byte.toNat)
    (hhigh : byte.toNat ≤ p.high) : decodeFrom offset (some p) done (byte :: rest) =
      decodeFrom (offset + 1) (some ⟨p.read + 1, p.owed - 1, 0x80, 0xBF,
        p.code * 64 + (byte.toNat - 0x80)⟩) done rest := by
  rw [decodeFrom, if_pos ⟨hlow, hhigh⟩]
  exact if_neg howed

theorem decodeFrom_last (howed : p.owed = 1) (hlow : p.low ≤ byte.toNat)
    (hhigh : byte.toNat ≤ p.high) : decodeFrom offset (some p) done (byte :: rest) =
      decodeFrom (offset + 1) none (Char.ofNat (p.code * 64 + (byte.toNat - 0x80)) :: done) rest := by
  rw [decodeFrom, if_pos ⟨hlow, hhigh⟩]
  exact if_pos howed

/-- Wherever the bytes stand, they are read as the character. -/
def ReadAs (bytes : List UInt8) (c : Char) : Prop :=
  ∀ offset done rest, ∃ later,
    decodeFrom offset none done (bytes ++ rest) = decodeFrom later none (c :: done) rest

theorem toNat_ofNat {n : Nat} (h : n < 256) : (UInt8.ofNat n).toNat = n :=
  UInt8.toNat_ofNat_of_lt' h

theorem readAs_one {v : Nat} (h : v ≤ 0x7F) : ReadAs [UInt8.ofNat v] (Char.ofNat v) := by
  intro offset done rest
  have hbyte : (UInt8.ofNat v).toNat = v := toNat_ofNat (by omega)
  have hstart : start (UInt8.ofNat v).toNat = .char v := by
    rw [hbyte]
    exact start_of_lt (by omega)
  exact ⟨offset + 1, decodeFrom_char hstart⟩

theorem readAs_two {v : Nat} (hlow : 0x7F < v) (hhigh : v ≤ 0x7FF) :
    ReadAs [UInt8.ofNat (v / 64 % 32 + 192), UInt8.ofNat (v % 64 + 128)] (Char.ofNat v) := by
  intro offset done rest
  have hfirst := toNat_ofNat (n := v / 64 % 32 + 192) (by omega)
  have hsecond := toNat_ofNat (n := v % 64 + 128) (by omega)
  have hcode : (v / 64 % 32 + 192 - 0xC0) * 64 + (v % 64 + 128 - 0x80) = v := by omega
  refine ⟨offset + 2, (decodeFrom_longer (start_two ?_ ?_)).trans
    ((decodeFrom_last rfl ?_ ?_).trans ?_)⟩
  · omega
  · omega
  · dsimp only
    omega
  · dsimp only
    omega
  · dsimp only
    rw [hfirst, hsecond, hcode]
    rfl

theorem readAs_three {v : Nat} (hlow : 0x7FF < v) (hhigh : v ≤ 0xFFFF)
    (hvalid : v < 0xD800 ∨ 0xDFFF < v) :
    ReadAs [UInt8.ofNat (v / 4096 % 16 + 224), UInt8.ofNat (v / 64 % 64 + 128),
      UInt8.ofNat (v % 64 + 128)] (Char.ofNat v) := by
  intro offset done rest
  have hfirst := toNat_ofNat (n := v / 4096 % 16 + 224) (by omega)
  have hsecond := toNat_ofNat (n := v / 64 % 64 + 128) (by omega)
  have hthird := toNat_ofNat (n := v % 64 + 128) (by omega)
  have hcode : ((v / 4096 % 16 + 224 - 0xE0) * 64 + (v / 64 % 64 + 128 - 0x80)) * 64 +
      (v % 64 + 128 - 0x80) = v := by omega
  refine ⟨offset + 3, (decodeFrom_longer (start_three ?_ ?_)).trans
    ((decodeFrom_more (by simp) ?_ ?_).trans ((decodeFrom_last rfl ?_ ?_).trans ?_))⟩
  · omega
  · omega
  -- The second byte is bounded so that no code has two spellings and none is a surrogate.
  · dsimp only
    split <;> omega
  · dsimp only
    split <;> omega
  · dsimp only
    omega
  · dsimp only
    omega
  · dsimp only
    rw [hfirst, hsecond, hthird, hcode]
    rfl

theorem readAs_four {v : Nat} (hlow : 0xFFFF < v) (hhigh : v < 0x110000) :
    ReadAs [UInt8.ofNat (v / 262144 % 8 + 240), UInt8.ofNat (v / 4096 % 64 + 128),
      UInt8.ofNat (v / 64 % 64 + 128), UInt8.ofNat (v % 64 + 128)] (Char.ofNat v) := by
  intro offset done rest
  have hfirst := toNat_ofNat (n := v / 262144 % 8 + 240) (by omega)
  have hsecond := toNat_ofNat (n := v / 4096 % 64 + 128) (by omega)
  have hthird := toNat_ofNat (n := v / 64 % 64 + 128) (by omega)
  have hfourth := toNat_ofNat (n := v % 64 + 128) (by omega)
  have hcode : (((v / 262144 % 8 + 240 - 0xF0) * 64 + (v / 4096 % 64 + 128 - 0x80)) * 64 +
      (v / 64 % 64 + 128 - 0x80)) * 64 + (v % 64 + 128 - 0x80) = v := by omega
  refine ⟨offset + 4, (decodeFrom_longer (start_four ?_ ?_)).trans
    ((decodeFrom_more (by simp) ?_ ?_).trans ((decodeFrom_more (by simp) ?_ ?_).trans
      ((decodeFrom_last rfl ?_ ?_).trans ?_)))⟩
  · omega
  · omega
  · dsimp only
    split <;> omega
  · dsimp only
    split <;> omega
  · dsimp only
    omega
  · dsimp only
    omega
  · dsimp only
    omega
  · dsimp only
    omega
  · dsimp only
    rw [hfirst, hsecond, hthird, hfourth, hcode]
    rfl

theorem readAs_encodeChar (c : Char) : ReadAs (String.utf8EncodeChar c) c := by
  have hvalid : c.val.toNat < 0xD800 ∨ 0xDFFF < c.val.toNat ∧ c.val.toNat < 0x110000 := c.valid
  have hchar : Char.ofNat c.val.toNat = c := Char.ofNat_toNat c
  unfold String.utf8EncodeChar
  dsimp only
  generalize c.val.toNat = v at hvalid hchar
  subst hchar
  split
  · rename_i hone
    exact readAs_one hone
  split
  · rename_i hone htwo
    exact readAs_two (by omega) htwo
  split
  · rename_i hone htwo hthree
    exact readAs_three (by omega) hthree (by omega)
  · rename_i hone htwo hthree
    exact readAs_four (by omega) (by omega)

theorem decodeFrom_flatMap (offset : Nat) (done text : List Char) :
    decodeFrom offset none done (text.flatMap String.utf8EncodeChar) = .ok (done.reverse ++ text) := by
  induction text generalizing offset done with
  | nil => simp [decodeFrom]
  | cons c text ih =>
    obtain ⟨later, hread⟩ := readAs_encodeChar c offset done (text.flatMap String.utf8EncodeChar)
    rw [List.flatMap_cons, hread, ih later (c :: done)]
    simp

theorem decode_encode (text : String) : decode (encode text) = .ok text := by
  unfold decode encode
  rw [decodeFrom_flatMap]
  change Except.ok (String.ofList text.toList) = .ok text
  rw [String.ofList_toList]

theorem lineFeed_not_mem_encodeChar {c : Char} (h : c ≠ '\n') : 10 ∉ String.utf8EncodeChar c := by
  have hvalue : c.val.toNat ≠ 10 := by
    intro heq
    apply h
    rw [← Char.ofNat_toNat c]
    exact congrArg Char.ofNat heq
  have hbyte {n : Nat} (hlt : n < 256) (hne : n ≠ 10) : (10 : UInt8) ≠ UInt8.ofNat n := by
    intro heq
    apply hne
    rw [← toNat_ofNat hlt, ← heq]
    rfl
  unfold String.utf8EncodeChar
  dsimp only
  generalize c.val.toNat = v at hvalue
  split
  · exact List.not_mem_cons_of_ne_of_not_mem (hbyte (by omega) hvalue) List.not_mem_nil
  split
  · simp only [List.mem_cons, List.not_mem_nil, not_or]
    exact ⟨hbyte (by omega) (by omega), hbyte (by omega) (by omega), not_false⟩
  split
  · simp only [List.mem_cons, List.not_mem_nil, not_or]
    exact ⟨hbyte (by omega) (by omega), hbyte (by omega) (by omega), hbyte (by omega) (by omega),
      not_false⟩
  · simp only [List.mem_cons, List.not_mem_nil, not_or]
    exact ⟨hbyte (by omega) (by omega), hbyte (by omega) (by omega), hbyte (by omega) (by omega),
      hbyte (by omega) (by omega), not_false⟩

theorem lineFeed_not_mem_encode {text : String} (h : '\n' ∉ text.toList) : 10 ∉ encode text := by
  unfold encode
  rw [List.mem_flatMap]
  rintro ⟨c, hc, hbyte⟩
  apply lineFeed_not_mem_encodeChar _ hbyte
  rintro rfl
  exact h hc

theorem linesFrom_append {line : List UInt8} (h : 10 ∉ line) (current rest : List UInt8) :
    linesFrom current (line ++ 10 :: rest) =
      (current.reverse ++ line ++ [10]) :: linesFrom [] rest := by
  induction line generalizing current with
  | nil => simp [linesFrom]
  | cons byte line ih =>
    rw [List.mem_cons, not_or] at h
    obtain ⟨hbyte, hline⟩ := h
    rw [List.cons_append, linesFrom, if_neg (Ne.symm hbyte), ih hline (byte :: current)]
    simp

theorem lines_encodeLines {lines : List String} (h : ∀ line ∈ lines, '\n' ∉ line.toList) :
    Utf8.lines (encodeLines lines) = lines.map fun line => encode line ++ [13, 10] := by
  induction lines with
  | nil => rfl
  | cons line lines ih =>
    have hline : 10 ∉ encode line ++ [13] := by
      rw [List.mem_append, not_or]
      exact ⟨lineFeed_not_mem_encode (h line List.mem_cons_self), by decide⟩
    have hsplit := linesFrom_append hline [] (encodeLines lines)
    have hlater := ih fun other hother => h other (List.mem_cons_of_mem line hother)
    unfold Utf8.lines at hlater ⊢
    rw [hlater] at hsplit
    simpa [encodeLines] using hsplit

theorem dropLineEnd_append (bytes : List UInt8) : dropLineEnd (bytes ++ [13, 10]) = bytes := by
  unfold dropLineEnd
  simp

end AccumulatorMachine.Utf8
