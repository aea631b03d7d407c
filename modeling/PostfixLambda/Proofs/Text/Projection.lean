import Mathlib.Data.Bool.Basic
import PostfixLambda.Proofs.Stream.Leaves
import PostfixLambda.Proofs.Text.Terminal

/-! Sending a text to a terminal is a projection. The well-formed texts are the UTF-8 forms of characters; of these a
    terminal is sent the ones without C1 controls as they are, and every other text as such a one. A writer that fails
    on the way has got a beginning of what the terminal is sent. -/

namespace PostfixLambda

namespace Utf8

/-! ### Well-formed texts -/

theorem range_of_isTail {b : UInt8} (h : isTail b = true) : 0x80 ≤ b.toNat ∧ b.toNat ≤ 0xBF := by
  simpa [isTail, UInt8.le_iff_toNat_le] using h

/-- A byte that may follow a first byte continues a sequence, and the form is neither too long, nor a surrogate, nor
    beyond the last character. -/
theorem range_of_mayFollow {b t : UInt8} (h : mayFollow b t = true) :
    (0x80 ≤ t.toNat ∧ t.toNat ≤ 0xBF) ∧ (b.toNat = 0xE0 → 0xA0 ≤ t.toNat) ∧ (b.toNat = 0xED → t.toNat ≤ 0x9F) ∧
      (b.toNat = 0xF0 → 0x90 ≤ t.toNat) ∧ (b.toNat = 0xF4 → t.toNat ≤ 0x8F) := by
  have hbyte : ∀ n : UInt8, b = n ↔ b.toNat = n.toNat := fun n => UInt8.toNat_inj.symm
  simp only [mayFollow, isTail, hbyte, UInt8.le_iff_toNat_le] at h
  grind

theorem code_ofNat {n : Nat} (h : n.isValidChar) : (Char.ofNat n).val.toNat = n := by
  rw [Char.ofNat, dif_pos h]
  rfl

theorem ofChar_two {b t : UInt8} (hb : 0xC2 ≤ b.toNat ∧ b.toNat ≤ 0xDF) (ht : 0x80 ≤ t.toNat ∧ t.toNat ≤ 0xBF) :
    Bytes.ofChar (Char.ofNat (b.toNat % 32 * 64 + t.toNat % 64)) = [b, t] := by
  have hcode := @code_ofNat (b.toNat % 32 * 64 + t.toNat % 64) (Or.inl (by omega))
  simp only [Bytes.ofChar, String.utf8EncodeChar, hcode]
  rw [if_neg (by omega), if_pos (by omega)]
  simp only [List.cons.injEq, and_true, ← UInt8.toNat_inj, UInt8.toNat_ofNat']
  omega

theorem ofChar_three {b t u : UInt8} (hb : 0xE0 ≤ b.toNat ∧ b.toNat ≤ 0xEF) (ht : 0x80 ≤ t.toNat ∧ t.toNat ≤ 0xBF)
    (hu : 0x80 ≤ u.toNat ∧ u.toNat ≤ 0xBF) (hlow : b.toNat = 0xE0 → 0xA0 ≤ t.toNat)
    (hhigh : b.toNat = 0xED → t.toNat ≤ 0x9F) :
    Bytes.ofChar (Char.ofNat (b.toNat % 16 * 4096 + t.toNat % 64 * 64 + u.toNat % 64)) = [b, t, u] := by
  have hvalid : (b.toNat % 16 * 4096 + t.toNat % 64 * 64 + u.toNat % 64).isValidChar := by
    unfold Nat.isValidChar
    omega
  simp only [Bytes.ofChar, String.utf8EncodeChar, code_ofNat hvalid]
  rw [if_neg (by omega), if_neg (by omega), if_pos (by omega)]
  simp only [List.cons.injEq, and_true, ← UInt8.toNat_inj, UInt8.toNat_ofNat']
  omega

theorem ofChar_four {b t u v : UInt8} (hb : 0xF0 ≤ b.toNat ∧ b.toNat ≤ 0xF4) (ht : 0x80 ≤ t.toNat ∧ t.toNat ≤ 0xBF)
    (hu : 0x80 ≤ u.toNat ∧ u.toNat ≤ 0xBF) (hv : 0x80 ≤ v.toNat ∧ v.toNat ≤ 0xBF)
    (hlow : b.toNat = 0xF0 → 0x90 ≤ t.toNat) (hhigh : b.toNat = 0xF4 → t.toNat ≤ 0x8F) :
    Bytes.ofChar (Char.ofNat
      (b.toNat % 8 * 262144 + t.toNat % 64 * 4096 + u.toNat % 64 * 64 + v.toNat % 64)) = [b, t, u, v] := by
  have hvalid : (b.toNat % 8 * 262144 + t.toNat % 64 * 4096 + u.toNat % 64 * 64 + v.toNat % 64).isValidChar := by
    unfold Nat.isValidChar
    omega
  simp only [Bytes.ofChar, String.utf8EncodeChar, code_ofNat hvalid]
  rw [if_neg (by omega), if_neg (by omega), if_neg (by omega)]
  simp only [List.cons.injEq, and_true, ← UInt8.toNat_inj, UInt8.toNat_ofNat']
  omega


theorem ofChar_ascii {b : UInt8} (hb : b.toNat < 0x80) : Bytes.ofChar (Char.ofNat b.toNat) = [b] := by
  simp only [Bytes.ofChar, String.utf8EncodeChar, code_ofNat (Or.inl (by omega) : b.toNat.isValidChar)]
  rw [if_pos (by omega), UInt8.ofNat_toNat]

/-- The rune at the front of a text is malformed, or it was read from the UTF-8 form of its character. -/
theorem first_cases (b : UInt8) (rest : Bytes) :
    first b rest = .malformed b ∨ Bytes.ofChar (first b rest).char = (first b rest).raw := by
  unfold first
  split
  · rename_i hb
    exact Or.inr (ofChar_ascii hb)
  · split
    · rename_i hb
      simp only [Bool.and_eq_true, decide_eq_true_eq] at hb
      split
      · split
        · rename_i ht
          obtain ⟨ht, -⟩ := range_of_mayFollow ht
          exact Or.inr (ofChar_two hb ht)
        · exact Or.inl rfl
      · exact Or.inl rfl
    · split
      · rename_i hb
        simp only [Bool.and_eq_true, decide_eq_true_eq] at hb
        split
        · split
          · rename_i htail
            simp only [Bool.and_eq_true] at htail
            obtain ⟨ht, hlow, hhigh, -⟩ := range_of_mayFollow htail.1
            exact Or.inr (ofChar_three hb ht (range_of_isTail htail.2) hlow hhigh)
          · exact Or.inl rfl
        · exact Or.inl rfl
      · split
        · rename_i hb
          simp only [Bool.and_eq_true, decide_eq_true_eq] at hb
          split
          · split
            · rename_i htail
              simp only [Bool.and_eq_true] at htail
              obtain ⟨ht, -, -, hlow, hhigh⟩ := range_of_mayFollow htail.1.1
              exact Or.inr (ofChar_four hb ht (range_of_isTail htail.1.2) (range_of_isTail htail.2) hlow hhigh)
            · exact Or.inl rfl
          · exact Or.inl rfl
        · exact Or.inl rfl

/-- A well-formed rune was read from the UTF-8 form of its character. -/
theorem ofChar_of_isWellFormed {b : UInt8} {rest : Bytes} (h : (first b rest).isWellFormed = true) :
    Bytes.ofChar (first b rest).char = (first b rest).raw := by
  rcases first_cases b rest with hmalformed | hform
  · rw [hmalformed] at h
    cases h
  · exact hform

/-- The UTF-8 form of a character is well-formed. -/
theorem isWellFormed_ofChar (c : Char) : (⟨c, Bytes.ofChar c⟩ : Rune).isWellFormed = true := by
  have hcode : c.toNat = c.val.toNat := rfl
  simp only [Rune.isWellFormed, Bytes.ofChar, String.utf8EncodeChar, Bool.or_eq_true, decide_eq_true_eq]
  split
  · right
    omega
  · left
    split
    · simp
    · split <;> simp

theorem isValid_encode (cs : List Char) : isValid (encode cs) = true := by
  induction cs with
  | nil => rw [encode, List.flatMap_nil, isValid, runes_nil, List.all_nil]
  | cons c cs ih =>
    rw [encode, List.flatMap_cons, isValid, runes_ofChar_append, List.all_cons, isWellFormed_ofChar, Bool.true_and]
    exact ih

theorem ofChar_of_mem_runes {text : Bytes} (h : isValid text = true) :
    ∀ r ∈ runes text, Bytes.ofChar r.char = r.raw := by
  unfold isValid at h
  fun_induction runes text with
  | case1 => simp
  | case2 b rest r ih =>
    rw [List.all_cons, Bool.and_eq_true] at h
    rw [List.forall_mem_cons]
    exact ⟨ofChar_of_isWellFormed h.1, ih h.2⟩

/-- A well-formed text is the UTF-8 form of its characters. -/
theorem encode_chars {text : Bytes} (h : isValid text = true) : encode (chars text) = text := by
  calc encode (chars text) = (runes text).flatMap fun r => Bytes.ofChar r.char := List.flatMap_map ..
    _ = (runes text).flatMap Rune.raw := by
      rw [List.flatMap_def, List.map_congr_left (ofChar_of_mem_runes h), ← List.flatMap_def]
    _ = text := flatMap_raw_runes text

end Utf8

namespace Text

open Utf8

/-! ### Terminal text -/

/-- The character is a C1 control. -/
def IsC1 (c : Char) : Prop := 0x80 ≤ c.toNat ∧ c.toNat ≤ 0x9F

instance (c : Char) : Decidable (IsC1 c) := inferInstanceAs (Decidable (_ ∧ _))

/-- The characters that a terminal is sent for one. -/
def terminalChars (c : Char) : List Char :=
  if c.toNat = 0x85 then ['\r', '\n']
  else if IsC1 c then [Char.ofNat 0x1B, Char.ofNat (c.toNat - 0x40)]
  else [c]

/-- The text that a terminal is sent for one. -/
def terminalText (text : Bytes) : Bytes := (terminalPieces text).flatten

theorem terminalChar_eq_encode (c : Char) : terminalChar c = encode (terminalChars c) := by
  by_cases hnext : c.toNat = 0x85
  · simp only [terminalChar, terminalChars, hnext, if_true]
    rfl
  · by_cases hc : IsC1 c
    · have hrange : 0x80 ≤ c.toNat ∧ c.toNat ≤ 0x9F := hc
      have hescape : ∀ k < 0x20, ([0x1B, (0x80 + k).toUInt8 ^^^ 0xC0] : Bytes) =
          encode [Char.ofNat 0x1B, Char.ofNat (0x80 + k - 0x40)] := by decide
      have hk := hescape (c.toNat - 0x80) (by omega)
      rw [Nat.add_sub_cancel' hrange.1] at hk
      simp only [terminalChar, terminalChars, hnext, hc, hrange, if_true, if_false, decide_true, Bool.and_self]
      exact hk
    · have hrange : ¬(0x80 ≤ c.toNat ∧ c.toNat ≤ 0x9F) := hc
      simp only [terminalChar, terminalChars, hnext, hc, Bool.and_eq_true, decide_eq_true_eq, hrange, if_false, encode,
        List.flatMap_cons, List.flatMap_nil, List.append_nil]

theorem not_isC1_of_mem_terminalChars {c d : Char} (h : d ∈ terminalChars c) : ¬IsC1 d := by
  unfold terminalChars at h
  split at h
  · simp only [List.mem_cons, List.not_mem_nil, or_false] at h
    rcases h with rfl | rfl <;> decide
  · split at h
    · rename_i hc
      have hlow : ∀ k < 0x20, ¬IsC1 (Char.ofNat (0x80 + k - 0x40)) := by decide
      have hk := hlow (c.toNat - 0x80) (by unfold IsC1 at hc; omega)
      rw [Nat.add_sub_cancel' hc.1] at hk
      simp only [List.mem_cons, List.not_mem_nil, or_false] at h
      rcases h with rfl | rfl
      · decide
      · exact hk
    · rename_i hc
      rw [List.mem_singleton.mp h]
      exact hc

theorem terminalChars_of_not_isC1 {c : Char} (h : ¬IsC1 c) : terminalChars c = [c] := by
  have hne : c.toNat ≠ 0x85 := by
    intro hc
    exact h (by simp [IsC1, hc])
  rw [terminalChars, if_neg hne, if_neg h]

theorem terminalText_eq_encode (text : Bytes) : terminalText text = encode ((chars text).flatMap terminalChars) := by
  have hpieces : terminalPieces text = (chars text).map fun c => encode (terminalChars c) :=
    List.map_congr_left fun c _ => terminalChar_eq_encode c
  rw [terminalText, hpieces, ← List.flatMap_def, encode, List.flatMap_assoc]
  rfl

/-- The text is well-formed and has no C1 control. -/
def TerminalSafe (text : Bytes) : Prop := isValid text = true ∧ ∀ c ∈ chars text, ¬IsC1 c

theorem terminalSafe_iff {text : Bytes} : TerminalSafe text ↔ ∃ cs, text = encode cs ∧ ∀ c ∈ cs, ¬IsC1 c := by
  constructor
  · rintro ⟨hvalid, hchars⟩
    exact ⟨chars text, (encode_chars hvalid).symm, hchars⟩
  · rintro ⟨cs, rfl, hcs⟩
    exact ⟨isValid_encode cs, by rwa [chars_encode]⟩

theorem terminalSafe_terminalText (text : Bytes) : TerminalSafe (terminalText text) := by
  refine terminalSafe_iff.mpr ⟨_, terminalText_eq_encode text, fun d hd => ?_⟩
  obtain ⟨c, -, hd⟩ := List.mem_flatMap.mp hd
  exact not_isC1_of_mem_terminalChars hd

theorem TerminalSafe.terminalText_eq {text : Bytes} (h : TerminalSafe text) : terminalText text = text := by
  obtain ⟨cs, rfl, hcs⟩ := terminalSafe_iff.mp h
  have hsame : cs.flatMap terminalChars = cs.flatMap fun c => [c] := by
    rw [List.flatMap_def, List.map_congr_left fun c hc => terminalChars_of_not_isC1 (hcs c hc), ← List.flatMap_def]
  rw [terminalText_eq_encode, chars_encode, hsame, List.flatMap_singleton']

theorem terminalText_eq_self_iff {text : Bytes} : terminalText text = text ↔ TerminalSafe text :=
  ⟨fun h => h ▸ terminalSafe_terminalText text, TerminalSafe.terminalText_eq⟩

end Text

/-! ### Writers -/

/-- What is asked of a writer in the states `P`: it takes a beginning of what it is offered and says how much that is,
    and if it does not take all of it, it fails. -/
structure Faithful {σ : Type} (write : σ → Bytes → σ × Written) (received : σ → Bytes) (P : σ → Prop) : Prop where
  stays : ∀ s p, P s → P (write s p).1
  received : ∀ s p, P s → received (write s p).1 = received s ++ p.take (write s p).2.count
  count_le : ∀ s p, P s → (write s p).2.count ≤ p.length
  complete : ∀ s p, P s → (write s p).2.error? = none → (write s p).2.count = p.length

/-- The sink's answers are those of a writer: it fails if it does not take all. -/
def Sink.FailsIfShort (s : Sink) : Prop :=
  ∀ held calls offered, (s.policy held calls offered).error? = none → offered ≤ (s.policy held calls offered).taken

/-- A sink that keeps what it takes, and fails if it does not take all, is a faithful writer. -/
theorem Sink.faithful : Faithful Sink.write Sink.text fun s => s.Keeps ∧ s.FailsIfShort where
  stays s p h := by
    refine ⟨(h.1.write rfl).2.2, ?_⟩
    have hpolicy : (s.write p).1.policy = s.policy := by
      unfold Sink.write
      split <;> rfl
    simpa only [FailsIfShort, hpolicy] using h.2
  received s p h := (h.1.write rfl).2.1
  count_le s p h := (h.1.write rfl).1
  complete s p h herror := by
    unfold Sink.write at herror ⊢
    split
    · rfl
    · rfl
    all_goals
      rename_i hkind
      simp only [hkind] at herror
      exact congrArg List.length (List.take_of_length_le (h.2 _ _ _ herror))

/-- Of pieces that are offered one after the other, a writer takes a beginning of what they hold together, and all of
    it if it does not fail. -/
theorem Faithful.pieces {σ : Type} {write : σ → Bytes → σ × Written} {received : σ → Bytes} {P : σ → Prop}
    (h : Faithful write received P) (count : Nat) {s : σ} (hs : P s) (pieces : List Bytes) :
    ∃ n s' error?, writePieces write count s pieces = (s', ⟨count + n, error?⟩) ∧ n ≤ pieces.flatten.length ∧
      received s' = received s ++ pieces.flatten.take n ∧ (error? = none → n = pieces.flatten.length) ∧
      ((∀ s p, P s → (write s p).2.error? = none) → error? = none) := by
  induction pieces generalizing count s with
  | nil => exact ⟨0, s, none, rfl, by simp⟩
  | cons piece rest ih =>
    rcases hw : write s piece with ⟨s₁, n₁, error₁?⟩
    have hstays := h.stays s piece hs
    have hreceived := h.received s piece hs
    have hle := h.count_le s piece hs
    have hcomplete := h.complete s piece hs
    simp only [hw] at hstays hreceived hle hcomplete
    rw [List.flatten_cons, List.length_append]
    cases error₁? with
    | some error =>
      refine ⟨n₁, s₁, some error, by simp only [writePieces, hw], by omega, ?_, by simp, fun hall => ?_⟩
      · rw [List.take_append_of_le_length hle, hreceived]
      · have hnone := hall s piece hs
        rw [hw] at hnone
        cases hnone
    | none =>
      obtain rfl := hcomplete rfl
      obtain ⟨n, s', error?, hrest, hn, htaken, hwhole, hall⟩ := ih (count + piece.length) hstays
      refine ⟨piece.length + n, s', error?, ?_, by omega, ?_, ?_, hall⟩
      · simp only [writePieces, hw, hrest, Nat.add_assoc]
      · rw [htaken, hreceived, List.take_length, List.take_length_add_append, List.append_assoc]
      · intro herror
        rw [hwhole herror]

namespace Text

/-- What a terminal is sent for a text is safe for it, and sending that again changes nothing: it is the text itself
    exactly if that is safe. A writer that never fails gets all of it, and the count says so; one that fails has got a
    beginning of it, of the length counted. -/
theorem terminal_projection (text : Bytes) :
    TerminalSafe (terminalText text) ∧ terminalText (terminalText text) = terminalText text ∧
    (terminalText text = text ↔ TerminalSafe text) ∧
    ∀ {σ : Type} {write : σ → Bytes → σ × Written} {received : σ → Bytes} {P : σ → Prop},
      Faithful write received P → ∀ s, P s → ∃ s' n error?,
        writePieces write 0 s (terminalPieces text) = (s', ⟨n, error?⟩) ∧
        n ≤ (terminalText text).length ∧ received s' = received s ++ (terminalText text).take n ∧
        (error? = none → n = (terminalText text).length) ∧
        ((∀ s p, P s → (write s p).2.error? = none) → error? = none ∧ received s' = received s ++ terminalText text) := by
  refine ⟨terminalSafe_terminalText text, (terminalSafe_terminalText text).terminalText_eq, terminalText_eq_self_iff, ?_⟩
  intro σ write received P h s hs
  obtain ⟨n, s', error?, hwritten, hn, hreceived, hwhole, hall⟩ := h.pieces 0 hs (terminalPieces text)
  rw [Nat.zero_add] at hwritten
  refine ⟨s', n, error?, hwritten, hn, hreceived, hwhole, fun hnever => ⟨hall hnever, ?_⟩⟩
  rw [hreceived, hwhole (hall hnever), List.take_length]
  rfl

/-- Of `λx.`, a control sequence introducer, `1m` and a next line, a sink that takes five bytes gets the three characters
    and the first byte of the escape, and then refuses. -/
theorem terminal_projection_cut_off :
    ∃ s', writePieces Sink.write 0 ⟨.plain, Policy.limited 5 false, .empty, [], 0, 0⟩
        (terminalPieces [0xCE, 0xBB, 0x78, 0x2E, 0xC2, 0x9B, 0x31, 0x6D, 0xC2, 0x85]) = (s', ⟨5, some .refused⟩) ∧
      s'.text = [0xCE, 0xBB, 0x78, 0x2E, 0x1B] := by
  have hlimited : Sink.FailsIfShort ⟨.plain, Policy.limited 5 false, .empty, [], 0, 0⟩ := by
    intro held calls offered herror
    simp only [Policy.limited] at herror ⊢
    split at herror
    · rename_i hroom
      simp [hroom]
    · cases herror
  obtain ⟨-, -, -, hwrite⟩ := terminal_projection [0xCE, 0xBB, 0x78, 0x2E, 0xC2, 0x9B, 0x31, 0x6D, 0xC2, 0x85]
  obtain ⟨s', n, error?, hwritten, -, hreceived, -⟩ :=
    hwrite Sink.faithful ⟨.plain, Policy.limited 5 false, .empty, [], 0, 0⟩ ⟨by simp [Sink.Keeps], hlimited⟩
  have hanswer : (writePieces Sink.write 0 ⟨.plain, Policy.limited 5 false, .empty, [], 0, 0⟩
      (terminalPieces [0xCE, 0xBB, 0x78, 0x2E, 0xC2, 0x9B, 0x31, 0x6D, 0xC2, 0x85])).2 = ⟨5, some .refused⟩ := by
    decide +kernel
  rw [hwritten] at hanswer
  cases hanswer
  refine ⟨s', hwritten, hreceived.trans ?_⟩
  decide +kernel

end Text

end PostfixLambda
