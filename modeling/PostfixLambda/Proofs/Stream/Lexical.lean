import PostfixLambda.Stream.Input

/-! The lexical rule. The words of a source are its maximal runs of characters that separate nothing, but where a word
    would begin with the comment mark there is a comment instead, which hides what follows. A line feed ends a comment,
    and so does a null character, which it should not. -/

namespace PostfixLambda

namespace Input

/-- The characters that separate words: white space and control characters. -/
def separates (c : Char) : Bool := Text.isBlank c || Text.isControl c

/-- The words of a text, by the characters that separate words and those that end a comment. A comment that no
    character ends goes up to the end of the text. -/
def lexemes (parts ends : Char → Bool) : List Char → List (List Char)
  | [] => []
  | c :: rest =>
    if parts c then lexemes parts ends rest
    else if c = commentMark then lexemes parts ends (rest.dropWhile fun c => !ends c)
    else (c :: rest.takeWhile fun c => !parts c) :: lexemes parts ends (rest.dropWhile fun c => !parts c)
termination_by text => text.length
decreasing_by
  · exact Nat.lt_succ_self _
  · exact Nat.lt_succ_of_le (List.dropWhile_sublist _).length_le
  · exact Nat.lt_succ_of_le (List.dropWhile_sublist _).length_le

/-- The characters that the comments of a text hide. -/
def hidden (parts ends : Char → Bool) : List Char → List Char
  | [] => []
  | c :: rest =>
    if parts c then hidden parts ends rest
    else if c = commentMark then
      (rest.takeWhile fun c => !ends c) ++ hidden parts ends (rest.dropWhile fun c => !ends c)
    else hidden parts ends (rest.dropWhile fun c => !parts c)
termination_by text => text.length
decreasing_by
  · exact Nat.lt_succ_self _
  · exact Nat.lt_succ_of_le (List.dropWhile_sublist _).length_le
  · exact Nat.lt_succ_of_le (List.dropWhile_sublist _).length_le

/-- The words of a text by the same rule, each with all that stands before it; `before` stands before the text. -/
def lexemesAfter (parts ends : Char → Bool) (before : List Char) : List Char → List (List Char × List Char)
  | [] => []
  | c :: rest =>
    if parts c then lexemesAfter parts ends (before ++ [c]) rest
    else if c = commentMark then
      lexemesAfter parts ends (before ++ c :: rest.takeWhile fun c => !ends c) (rest.dropWhile fun c => !ends c)
    else
      (before, c :: rest.takeWhile fun c => !parts c) ::
        lexemesAfter parts ends (before ++ c :: rest.takeWhile fun c => !parts c) (rest.dropWhile fun c => !parts c)
termination_by text => text.length
decreasing_by
  · exact Nat.lt_succ_self _
  · exact Nat.lt_succ_of_le (List.dropWhile_sublist _).length_le
  · exact Nat.lt_succ_of_le (List.dropWhile_sublist _).length_le

/-- The line feed, which is to end a comment. -/
def endsLine (c : Char) : Bool := c = '\n'

/-- What does end a comment: a line feed, or a null character. -/
def endsComment (c : Char) : Bool := endsLine c || c.toNat = 0

theorem dropWhile_of_takeWhile {α : Type} {p q : α → Bool} {l : List α} (hpq : ∀ x, q x = true → p x = true)
    (h : ∀ x ∈ l.takeWhile p, q x = true) : l.dropWhile q = l.dropWhile p := by
  induction l with
  | nil => rfl
  | cons x l ih =>
    by_cases hp : p x = true
    · rw [List.takeWhile_cons_of_pos hp, List.forall_mem_cons] at h
      rw [List.dropWhile_cons_of_pos hp, List.dropWhile_cons_of_pos h.1, ih h.2]
    · have hq : ¬q x = true := fun hq => hp (hpq x hq)
      rw [List.dropWhile_cons_of_neg hp, List.dropWhile_cons_of_neg hq]

/-- Where no comment holds a null character, comments end at line feeds only. -/
theorem lexemes_endsComment {cs : List Char} (h : ∀ c ∈ hidden separates endsLine cs, c.toNat ≠ 0) :
    lexemes separates endsComment cs = lexemes separates endsLine cs := by
  fun_induction lexemes separates endsLine cs with
  | case1 => rw [lexemes]
  | case2 c rest hc ih =>
    rw [hidden, if_pos hc] at h
    rw [lexemes, if_pos hc, ih h]
  | case3 rest hc ih =>
    rw [hidden, if_neg hc, if_pos rfl, List.forall_mem_append] at h
    have hsame : (rest.dropWhile fun c => !endsComment c) = rest.dropWhile fun c => !endsLine c := by
      refine dropWhile_of_takeWhile (fun c hc => ?_) fun c hc => ?_
      · simp only [endsComment, Bool.not_or, Bool.and_eq_true] at hc
        exact hc.1
      · have hline := List.all_eq_true.mp List.all_takeWhile c hc
        simpa [endsComment, h.1 c hc] using hline
    rw [lexemes, if_neg hc, if_pos rfl, hsame, ih h.2]
  | case4 c rest hc hmark ih =>
    rw [hidden, if_neg hc, if_neg hmark] at h
    rw [lexemes, if_neg hc, if_neg hmark, ih h]

theorem map_snd_lexemesAfter (parts ends : Char → Bool) (before cs : List Char) :
    (lexemesAfter parts ends before cs).map Prod.snd = lexemes parts ends cs := by
  fun_induction lexemesAfter parts ends before cs with
  | case1 => rw [lexemes, List.map_nil]
  | case2 before c rest hc ih => rw [lexemes, if_pos hc, ih]
  | case3 before rest hc ih => rw [lexemes, if_neg hc, if_pos rfl, ih]
  | case4 before c rest hc hmark ih => rw [lexemes, if_neg hc, if_neg hmark, List.map_cons, ih]

/-- What stands before a text stands before each of its words. -/
theorem lexemesAfter_append (parts ends : Char → Bool) (front before cs : List Char) :
    lexemesAfter parts ends (front ++ before) cs =
      (lexemesAfter parts ends before cs).map fun (before, w) => (front ++ before, w) := by
  fun_induction lexemesAfter parts ends before cs with
  | case1 => rw [lexemesAfter, List.map_nil]
  | case2 before c rest hc ih => rw [lexemesAfter, if_pos hc, List.append_assoc, ih]
  | case3 before rest hc ih => rw [lexemesAfter, if_neg hc, if_pos rfl, List.append_assoc, ih]
  | case4 before c rest hc hmark ih =>
    rw [lexemesAfter, if_neg hc, if_neg hmark, List.append_assoc, ih, List.map_cons]

/-- A word stands in its text after what stands before it. -/
theorem of_mem_lexemesAfter {parts ends : Char → Bool} {before cs front w : List Char}
    (h : (front, w) ∈ lexemesAfter parts ends before cs) : w ≠ [] ∧ ∃ back, before ++ cs = front ++ w ++ back := by
  fun_induction lexemesAfter parts ends before cs with
  | case1 => cases h
  | case2 before c rest hc ih =>
    obtain ⟨hne, back, hback⟩ := ih h
    exact ⟨hne, back, by rw [← hback, List.append_assoc, List.singleton_append]⟩
  | case3 before rest hc ih =>
    obtain ⟨hne, back, hback⟩ := ih h
    refine ⟨hne, back, ?_⟩
    rw [← hback, List.append_assoc, List.cons_append, List.takeWhile_append_dropWhile]
  | case4 before c rest hc hmark ih =>
    rcases List.mem_cons.mp h with hfirst | hlater
    · obtain ⟨rfl, rfl⟩ := Prod.mk.inj hfirst
      refine ⟨List.cons_ne_nil _ _, rest.dropWhile fun c => !parts c, ?_⟩
      rw [List.append_assoc, List.cons_append, List.takeWhile_append_dropWhile]
    · obtain ⟨hne, back, hback⟩ := ih hlater
      refine ⟨hne, back, ?_⟩
      rw [← hback, List.append_assoc, List.cons_append, List.takeWhile_append_dropWhile]

end Input

end PostfixLambda
