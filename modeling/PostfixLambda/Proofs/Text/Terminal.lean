import Mathlib.Data.Bool.Basic
import PostfixLambda.Proofs.Text.Fields
import PostfixLambda.Text.Integer
import PostfixLambda.Text.Terminal

/-! A text without control characters goes to a terminal as it is, and is one line there. The UTF-8 form of characters
    is read back as those characters, so what a text was made of decides what becomes of it. -/

namespace PostfixLambda

namespace Utf8

/-! ### Reading what was encoded -/

theorem isTail_of_range {b : UInt8} (h : 0x80 ≤ b.toNat ∧ b.toNat ≤ 0xBF) : isTail b = true := by
  simpa [isTail, UInt8.le_iff_toNat_le] using h

theorem first_two {b t : UInt8} (hb : 0xC2 ≤ b.toNat ∧ b.toNat ≤ 0xDF) (ht : 0x80 ≤ t.toNat ∧ t.toNat ≤ 0xBF)
    (rest : Bytes) : first b (t :: rest) = ⟨Char.ofNat (b.toNat % 32 * 64 + t.toNat % 64), [b, t]⟩ := by
  have htail := isTail_of_range ht
  have hclass : 0xC2 ≤ b ∧ b ≤ 0xDF := hb
  simp only [first, mayFollow, tailBits]
  grind

theorem first_three {b t u : UInt8} (hb : 0xE0 ≤ b.toNat ∧ b.toNat ≤ 0xEF) (ht : 0x80 ≤ t.toNat ∧ t.toNat ≤ 0xBF)
    (hu : 0x80 ≤ u.toNat ∧ u.toNat ≤ 0xBF) (hlow : b.toNat = 0xE0 → 0xA0 ≤ t.toNat)
    (hhigh : b.toNat = 0xED → t.toNat ≤ 0x9F) (rest : Bytes) :
    first b (t :: u :: rest) = ⟨Char.ofNat (b.toNat % 16 * 4096 + t.toNat % 64 * 64 + u.toNat % 64), [b, t, u]⟩ := by
  have htail := isTail_of_range ht
  have htail' := isTail_of_range hu
  have hclass : 0xE0 ≤ b ∧ b ≤ 0xEF := hb
  have hsecond : 0x80 ≤ t ∧ t ≤ 0xBF := ht
  have hlow' : b = 0xE0 → 0xA0 ≤ t := fun h => hlow (congrArg UInt8.toNat h)
  have hhigh' : b = 0xED → t ≤ 0x9F := fun h => hhigh (congrArg UInt8.toNat h)
  simp only [first, mayFollow, tailBits]
  grind

theorem first_four {b t u v : UInt8} (hb : 0xF0 ≤ b.toNat ∧ b.toNat ≤ 0xF4) (ht : 0x80 ≤ t.toNat ∧ t.toNat ≤ 0xBF)
    (hu : 0x80 ≤ u.toNat ∧ u.toNat ≤ 0xBF) (hv : 0x80 ≤ v.toNat ∧ v.toNat ≤ 0xBF)
    (hlow : b.toNat = 0xF0 → 0x90 ≤ t.toNat) (hhigh : b.toNat = 0xF4 → t.toNat ≤ 0x8F) (rest : Bytes) :
    first b (t :: u :: v :: rest) =
      ⟨Char.ofNat (b.toNat % 8 * 262144 + t.toNat % 64 * 4096 + u.toNat % 64 * 64 + v.toNat % 64), [b, t, u, v]⟩ := by
  have htail := isTail_of_range ht
  have htail' := isTail_of_range hu
  have htail'' := isTail_of_range hv
  have hclass : 0xF0 ≤ b ∧ b ≤ 0xF4 := hb
  have hsecond : 0x80 ≤ t ∧ t ≤ 0xBF := ht
  have hlow' : b = 0xF0 → 0x90 ≤ t := fun h => hlow (congrArg UInt8.toNat h)
  have hhigh' : b = 0xF4 → t ≤ 0x8F := fun h => hhigh (congrArg UInt8.toNat h)
  simp only [first, mayFollow, tailBits]
  grind

/-- The front rune of a text that begins with an encoded character is that character. -/
theorem runes_ofChar_append (c : Char) (rest : Bytes) :
    runes (Bytes.ofChar c ++ rest) = ⟨c, Bytes.ofChar c⟩ :: runes rest := by
  have hvalid : c.val.toNat < 0xD800 ∨ (0xDFFF < c.val.toNat ∧ c.val.toNat < 0x110000) := c.valid
  have hchar : ∀ n, n = c.val.toNat → Char.ofNat n = c := by
    rintro n rfl
    exact Char.ofNat_toNat c
  simp only [Bytes.ofChar, String.utf8EncodeChar]
  split
  · rename_i hone
    have hbyte : (UInt8.ofNat c.val.toNat).toNat = c.val.toNat := by
      rw [UInt8.toNat_ofNat']
      omega
    have hascii : UInt8.ofNat c.val.toNat < 0x80 := by
      rw [UInt8.lt_iff_toNat_lt, hbyte]
      exact Nat.lt_succ_of_le hone
    rw [List.singleton_append, runes_ascii hascii, hbyte, hchar _ rfl]
  · split
    · simp only [List.cons_append, List.nil_append]
      rw [runes_cons, first_two, hchar]
      · rfl
      all_goals
        simp only [UInt8.toNat_ofNat']
        omega
    · split
      · simp only [List.cons_append, List.nil_append]
        rw [runes_cons, first_three, hchar]
        · rfl
        all_goals
          simp only [UInt8.toNat_ofNat']
          omega
      · simp only [List.cons_append, List.nil_append]
        rw [runes_cons, first_four, hchar]
        · rfl
        all_goals
          simp only [UInt8.toNat_ofNat']
          omega

theorem chars_encode (cs : List Char) : chars (encode cs) = cs := by
  induction cs with
  | nil => rw [chars, encode, List.flatMap_nil, runes_nil, List.map_nil]
  | cons c cs ih =>
    rw [encode, List.flatMap_cons, chars, runes_ofChar_append, List.map_cons]
    exact congrArg (c :: ·) ih

theorem encode_append (cs ds : List Char) : encode (cs ++ ds) = encode cs ++ encode ds := List.flatMap_append ..

/-- A byte of ASCII in the form of a character is the character's code. -/
theorem toNat_of_mem_ofChar {c : Char} {b : UInt8} (h : b ∈ Bytes.ofChar c) (hb : b.toNat < 0x80) :
    c.toNat = b.toNat := by
  change c.val.toNat = b.toNat
  simp only [Bytes.ofChar, String.utf8EncodeChar] at h
  split at h
  · rw [List.mem_singleton.mp h, UInt8.toNat_ofNat']
    omega
  · -- The bytes of a longer form are all beyond ASCII.
    exfalso
    split at h
    · simp only [List.mem_cons, List.not_mem_nil, or_false] at h
      rcases h with rfl | rfl <;> rw [UInt8.toNat_ofNat'] at hb <;> omega
    · split at h
      · simp only [List.mem_cons, List.not_mem_nil, or_false] at h
        rcases h with rfl | rfl | rfl <;> rw [UInt8.toNat_ofNat'] at hb <;> omega
      · simp only [List.mem_cons, List.not_mem_nil, or_false] at h
        rcases h with rfl | rfl | rfl | rfl <;> rw [UInt8.toNat_ofNat'] at hb <;> omega

end Utf8

namespace Text

open Utf8

/-! ### Texts without control characters -/

/-- The text is made of characters, none of them a control character. -/
def Tidy (text : Bytes) : Prop := ∃ cs, text = encode cs ∧ ∀ c ∈ cs, isControl c = false

theorem tidy_nil : Tidy [] := ⟨[], rfl, by simp⟩

theorem tidy_ofChar {c : Char} (h : isControl c = false) : Tidy (Bytes.ofChar c) :=
  ⟨[c], by simp [encode], by simpa using h⟩

theorem tidy_ofString {s : String} (h : s.toList.any isControl = false) : Tidy (Bytes.ofString s) :=
  ⟨s.toList, rfl, by simpa using h⟩

theorem Tidy.append {t u : Bytes} (ht : Tidy t) (hu : Tidy u) : Tidy (t ++ u) := by
  obtain ⟨cs, rfl, hcs⟩ := ht
  obtain ⟨ds, rfl, hds⟩ := hu
  exact ⟨cs ++ ds, (encode_append cs ds).symm, List.forall_mem_append.mpr ⟨hcs, hds⟩⟩

theorem tidy_flatMap {α : Type} {f : α → Bytes} {xs : List α} (h : ∀ x ∈ xs, Tidy (f x)) : Tidy (xs.flatMap f) := by
  induction xs with
  | nil => exact tidy_nil
  | cons x xs ih =>
    rw [List.forall_mem_cons] at h
    exact h.1.append (ih h.2)

theorem tidy_ascii {text : Bytes} (h : ∀ b ∈ text, 0x20 ≤ b ∧ b < 0x7F) : Tidy text := by
  refine ⟨text.map fun b => Char.ofNat b.toNat, ?_, ?_⟩
  · induction text with
    | nil => rfl
    | cons b text ih =>
      rw [List.forall_mem_cons] at h
      have hcode : (Char.ofNat b.toNat).val.toNat = b.toNat := toNat_ofNat_byte b
      have hone : b.toNat ≤ 0x7F := Nat.le_of_lt h.1.2
      have hbyte : Bytes.ofChar (Char.ofNat b.toNat) = [b] := by
        simp only [Bytes.ofChar, String.utf8EncodeChar, hcode, if_pos hone, UInt8.ofNat_toNat]
      rw [List.map_cons, encode, List.flatMap_cons, hbyte]
      exact congrArg (b :: ·) (ih h.2)
  · intro c hc
    obtain ⟨b, hb, rfl⟩ := List.mem_map.mp hc
    have hlow : 0x20 ≤ b.toNat := (h b hb).1
    have hhigh : b.toNat < 0x7F := (h b hb).2
    simp only [isControl, toNat_ofNat_byte, Bool.or_eq_false_iff, Bool.and_eq_false_iff, decide_eq_false_iff_not]
    omega

theorem Tidy.lineFeed_not_mem {text : Bytes} (h : Tidy text) : Bytes.lineFeed ∉ text := by
  obtain ⟨cs, rfl, hcs⟩ := h
  intro hmem
  obtain ⟨c, hc, hfeed⟩ := List.mem_flatMap.mp hmem
  have hcode : c.toNat = 0x0A := toNat_of_mem_ofChar hfeed (by decide)
  have hcontrol := hcs c hc
  simp [isControl, hcode] at hcontrol

/-- A line without control characters goes to a terminal as it is. -/
theorem Tidy.terminal_line {text : Bytes} (h : Tidy text) :
    (terminalPieces (text ++ [Bytes.lineFeed])).flatten = text ++ [Bytes.lineFeed] := by
  obtain ⟨cs, rfl, hcs⟩ := h
  have hline : encode cs ++ [Bytes.lineFeed] = encode (cs ++ ['\n']) := by
    rw [encode_append]
    rfl
  have hpiece : ∀ c ∈ cs ++ ['\n'], terminalChar c = Bytes.ofChar c := by
    intro c hc
    have hcode : ¬(0x80 ≤ c.toNat ∧ c.toNat ≤ 0x9F) := by
      rcases List.mem_append.mp hc with hc | hc
      · have hcontrol := hcs c hc
        simp only [isControl, Bool.or_eq_false_iff, Bool.and_eq_false_iff, decide_eq_false_iff_not] at hcontrol
        omega
      · rw [List.mem_singleton.mp hc]
        decide
    simp only [terminalChar, Bool.and_eq_true, decide_eq_true_eq]
    rw [if_neg (by omega), if_neg hcode]
  rw [hline, terminalPieces, chars_encode, List.map_congr_left hpiece, ← List.flatMap_def]
  rfl

end Text

end PostfixLambda
