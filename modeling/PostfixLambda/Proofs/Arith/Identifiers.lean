import PostfixLambda.Proofs.Arith.Spelling
import PostfixLambda.Proofs.Substitution.Renamer

/-! Names and their primes. A name stays a name when primes are appended to it, with one exception: a caret is a name,
    but a caret with something after it is meant as a rune literal, and with primes after it is a broken one. -/

namespace PostfixLambda.Arith

open Text (Solid)

/-! ### Names -/

/-- The words that are read as themselves. -/
theorem readWord_eq_ident_iff {word : Bytes} :
    readWord word = .ok (.ident word) ↔ word ≠ [] ∧ (∀ entry ∈ fixedWords, entry.1 ≠ word) ∧
      Text.readInt64? word = none ∧ isRuneWord word = false := by
  have hfixed : (fixedWords.find? fun entry => entry.1 = word) = none ↔ ∀ entry ∈ fixedWords, entry.1 ≠ word := by
    simp [List.find?_eq_none]
  rw [← hfixed]
  constructor
  · intro h
    simp only [readWord] at h
    split at h
    · cases h
    · rename_i hne
      split at h
      · rename_i name t hfind
        cases h
        have hmem := List.mem_of_find?_eq_some hfind
        simp [fixedWords] at hmem
      · rename_i hfind
        split at h
        · cases h
        · rename_i hint
          split at h
          · split at h <;> cases h
          · rename_i hrune
            exact ⟨by simpa using hne, hfind, hint, by simpa using hrune⟩
  · rintro ⟨hne, hfind, hint, hrune⟩
    simp [readWord, hne, hfind, hint, hrune]

theorem readInt64?_prime (s : Bytes) : Text.readInt64? (Renamer.prime s) = none := by
  have hnatural : ∀ digits : Bytes, Text.readNatural? (digits ++ [0x27]) = none := by
    intro digits
    have hquote : Bytes.isDigit 0x27 = false := by decide
    simp [Text.readNatural?, hquote]
  cases s with
  | nil => decide
  | cons c rest =>
    simp only [Text.readInt64?, Renamer.prime, List.cons_append, Text.readSign]
    split
    · rename_i rest' h
      cases h
      simp [hnatural]
    · rename_i rest' h
      cases h
      simp [hnatural]
    · rw [← List.cons_append]
      simp only [hnatural]
      rfl

/-- With a prime a name is a name, unless it is the caret. -/
theorem IsName.prime {s : Bytes} (h : IsName s) (hs : s ≠ [0x5E]) : IsName (Renamer.prime s) := by
  obtain ⟨hsolid, hread⟩ := h
  obtain ⟨hne, -, -, hrune⟩ := readWord_eq_ident_iff.mp hread
  have hlast : ∀ entry ∈ fixedWords, entry.1.getLast? ≠ some 0x27 := by decide
  refine ⟨hsolid.append_ascii (by decide) (by decide), readWord_eq_ident_iff.mpr ⟨?_, ?_, readInt64?_prime s, ?_⟩⟩
  · simp [Renamer.prime]
  · rintro entry hentry heq
    refine hlast entry hentry ?_
    rw [heq]
    simp [Renamer.prime]
  · -- A quote would have been in front before, and a prime closes no angle bracket: a caret alone is left.
    obtain ⟨c, rest, rfl⟩ := List.exists_cons_of_ne_nil hne
    have hquote : (c :: (rest ++ [0x27])).getLast? = some 0x27 := by
      rw [← List.cons_append]
      exact List.getLast?_concat ..
    change isRuneWord (c :: (rest ++ [0x27])) = false
    unfold isRuneWord
    split
    · rename_i heq
      cases heq
      cases hrune
    · rw [hquote]
      rfl
    · rename_i heq
      cases heq
      have hrest : rest = [] := by simpa [isRuneWord] using hrune
      rw [hrest] at hs
      exact absurd rfl hs
    · rfl

/-! ### The caret with primes -/

/-- A caret with one prime or more. -/
def PrimedCaret (s : Bytes) : Prop := ∃ k, s = 0x5E :: 0x27 :: List.replicate k 0x27

theorem primedCaret_caret : PrimedCaret (Renamer.prime [0x5E]) := ⟨0, rfl⟩

theorem PrimedCaret.prime {s : Bytes} (h : PrimedCaret s) : PrimedCaret (Renamer.prime s) := by
  obtain ⟨k, rfl⟩ := h
  exact ⟨k + 1, by simp [Renamer.prime, List.replicate_succ']⟩

theorem PrimedCaret.solid {s : Bytes} (h : PrimedCaret s) : Solid s := by
  obtain ⟨k, rfl⟩ := h
  refine Text.solid_of_ascii (by simp) ?_
  intro b hb
  simp only [List.mem_cons, List.mem_replicate] at hb
  rcases hb with rfl | rfl | ⟨-, rfl⟩ <;> decide

theorem controlCode?_primedCaret {s : Bytes} (h : PrimedCaret s) : Text.controlCode? s = none := by
  obtain ⟨k, rfl⟩ := h
  have hcaret : ∀ entry ∈ Text.controlWords, entry.1.take 2 ≠ [0x5E, 0x27] := by decide +kernel
  simp only [Text.controlCode?, Option.map_eq_none_iff, List.find?_eq_none]
  intro entry hentry heq
  refine hcaret entry hentry ?_
  rw [of_decide_eq_true heq]
  rfl

/-- A caret with primes is refused as a rune literal. -/
theorem readWord_primedCaret {s : Bytes} (h : PrimedCaret s) : readWord s = .error (.badRune s .badForm) := by
  have hcontrol := controlCode?_primedCaret h
  obtain ⟨k, rfl⟩ := h
  have hfind : (fixedWords.find? fun entry => entry.1 = 0x5E :: 0x27 :: List.replicate k 0x27) = none := by
    have hcaret : ∀ entry ∈ fixedWords, entry.1.head? ≠ some 0x5E := by decide
    rw [List.find?_eq_none]
    intro entry hentry heq
    refine hcaret entry hentry ?_
    rw [of_decide_eq_true heq]
    rfl
  have hint : Text.readInt64? (0x5E :: 0x27 :: List.replicate k 0x27) = none := by
    have hprime := readInt64?_prime (0x5E :: List.replicate k 0x27)
    rwa [Renamer.prime, List.cons_append, ← List.replicate_succ', List.replicate_succ] at hprime
  simp [readWord, hfind, hint, isRuneWord, Text.readRune, hcontrol]

theorem IsName.not_primedCaret {s : Bytes} (h : IsName s) : ¬PrimedCaret s := by
  intro hcaret
  have hread := h.2
  rw [readWord_primedCaret hcaret] at hread
  cases hread

theorem readWords_primedCaret {words : List Bytes} (hwords : ∀ word ∈ words, PrimedCaret word ∨ ∃ t, readWord word = .ok t)
    (h : ∃ word ∈ words, PrimedCaret word) :
    ∃ s, PrimedCaret s ∧ readWords words = .error (.badRune s .badForm) := by
  induction words with
  | nil =>
    obtain ⟨word, hword, -⟩ := h
    cases hword
  | cons word words ih =>
    rw [List.forall_mem_cons] at hwords
    rw [readWords_cons]
    rcases hwords.1 with hcaret | ⟨t, ht⟩
    · refine ⟨word, hcaret, ?_⟩
      rw [readWord_primedCaret hcaret]
      rfl
    · obtain ⟨s, hs, hcaret⟩ := h
      have hlater : s ∈ words := by
        rcases List.mem_cons.mp hs with rfl | hs
        · rw [readWord_primedCaret hcaret] at ht
          cases ht
        · exact hs
      obtain ⟨s', hs', hread⟩ := ih hwords.2 ⟨s, hlater, hcaret⟩
      refine ⟨s', hs', ?_⟩
      rw [ht, hread]
      rfl

end PostfixLambda.Arith
