import PostfixLambda.Proofs.Stream.Scanning

/-! Where words come from. A word carries the name of its source and the line where it begins there, whatever was read
    before; and no source, however it ends, changes the words of the next one. -/

namespace PostfixLambda

/-- The words of a source, each with the name of the source and the line where the word begins: one more than there are
    line feeds before it. -/
def Source.located (s : Source) : List (Bytes × Location) :=
  (Input.lexemesAfter Input.separates Input.endsComment [] s.chars).map fun (before, w) =>
    (Utf8.encode w, ⟨s.name, 1 + before.count '\n'⟩)

theorem Source.map_fst_located (s : Source) :
    s.located.map Prod.fst = (Input.lexemes Input.separates Input.endsComment s.chars).map Utf8.encode :=
  Input.map_fst_wordsAt s.unread

theorem Source.of_mem_located {s : Source} {entry : Bytes × Location} (h : entry ∈ s.located) :
    ∃ before w after, s.chars = before ++ w ++ after ∧ w ≠ [] ∧
      entry = (Utf8.encode w, ⟨s.name, 1 + before.count '\n'⟩) := by
  obtain ⟨⟨before, w⟩, hmem, rfl⟩ := List.mem_map.mp h
  obtain ⟨hne, after, hchars⟩ := Input.of_mem_lexemesAfter hmem
  exact ⟨before, w, after, hchars, hne, rfl⟩

namespace Input

/-- An input with no source open has the words of the sources that wait, one source after the other. -/
theorem words_of_queue {inp : Input} (hread : inp.Readable) (hclosed : inp.current? = none) :
    ∃ inp' loc, inp.words = (inp', inp.queue.flatMap Source.located, .ended loc) := by
  obtain ⟨inp', loc, hwords, -⟩ := @wordsFrom_located inp [] hread
  refine ⟨inp', loc, ?_⟩
  rw [words, hwords, places_of_closed hclosed, List.flatMap_map]
  rfl

/-- Every word found carries the name of its source and the line of the place in the source where it stands; and the
    words of one queue followed by another are the words of the one followed by those of the other. -/
theorem words_carry_origin {inp : Input} (hread : inp.Readable) (hclosed : inp.current? = none) :
    (∃ inp' loc, inp.words = (inp', inp.queue.flatMap Source.located, .ended loc)) ∧
      (∀ s ∈ inp.queue,
        s.located.map Prod.fst = (lexemes separates endsComment s.chars).map Utf8.encode ∧
          ∀ entry ∈ s.located, ∃ before w after, s.chars = before ++ w ++ after ∧ w ≠ [] ∧
            entry = (Utf8.encode w, ⟨s.name, 1 + before.count '\n'⟩)) ∧
      ∀ inp₁ inp₂ : Input, inp₁.current? = none → inp₂.current? = none → inp.queue = inp₁.queue ++ inp₂.queue →
        inp.words.2.1 = inp₁.words.2.1 ++ inp₂.words.2.1 := by
  have hall := words_of_queue hread hclosed
  refine ⟨hall, fun s _ => ⟨s.map_fst_located, fun entry hentry => Source.of_mem_located hentry⟩, ?_⟩
  intro inp₁ inp₂ hclosed₁ hclosed₂ hqueue
  have hsources : ∀ s ∈ inp₁.queue ++ inp₂.queue, s.Readable := by
    intro s hs
    refine hread s ?_
    rw [sources, hclosed, hqueue]
    exact hs
  rw [List.forall_mem_append] at hsources
  have hread₁ : inp₁.Readable := by
    rw [Readable, sources, hclosed₁]
    exact hsources.1
  have hread₂ : inp₂.Readable := by
    rw [Readable, sources, hclosed₂]
    exact hsources.2
  obtain ⟨_, _, hwords⟩ := hall
  obtain ⟨_, _, hwords₁⟩ := words_of_queue hread₁ hclosed₁
  obtain ⟨_, _, hwords₂⟩ := words_of_queue hread₂ hclosed₂
  rw [hwords, hwords₁, hwords₂, hqueue, List.flatMap_append]

/-- A comment between two words, a source that ends in a word, an empty one, and one that ends in a comment. -/
theorem words_carry_origin_mixed :
    let inp : Input := { queue := [.named "a" "x\n# y\n z", .named "b" "", .named "c" "\n\nv #", .named "d" "w\n"] }
    inp.Readable ∧ inp.current? = none ∧
      inp.words.2.1 = [(Bytes.ofString "x", ⟨"a", 1⟩), (Bytes.ofString "z", ⟨"a", 3⟩), (Bytes.ofString "v", ⟨"c", 3⟩),
        (Bytes.ofString "w", ⟨"d", 1⟩)] := by
  intro inp
  have hread : inp.Readable := by
    simp only [inp, Readable, sources, Option.toList_none, List.nil_append, List.forall_mem_cons]
    exact ⟨Source.readable_named _ _, Source.readable_named _ _, Source.readable_named _ _, Source.readable_named _ _,
      by simp⟩
  obtain ⟨⟨inp', loc, hwords⟩, -, -⟩ := words_carry_origin hread rfl
  refine ⟨hread, rfl, ?_⟩
  have hlocated : inp.queue.flatMap Source.located =
      [(Bytes.ofString "x", ⟨"a", 1⟩), (Bytes.ofString "z", ⟨"a", 3⟩), (Bytes.ofString "v", ⟨"c", 3⟩),
        (Bytes.ofString "w", ⟨"d", 1⟩)] := by
    decide +kernel
  rw [hwords]
  exact hlocated

end Input

end PostfixLambda
