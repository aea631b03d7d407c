import PostfixLambda.Proofs.Text.Parts
import PostfixLambda.Wrapper.Builder

/-! How the line of a builder method is read. Its names are read as words and its parameters up to the first place that
    looks like their end, so a line is read as it was meant exactly if its names are words and no such place comes
    early. -/

namespace PostfixLambda.Wrapper

/-! ### The line of a builder method -/

/-- A name: at least one byte, none of them a blank or a parenthesis. -/
structure Identifier (name : Bytes) : Prop where
  ne_nil : name ≠ []
  space_not_mem : 0x20 ∉ name
  opening_not_mem : 0x28 ∉ name
  closing_not_mem : 0x29 ∉ name

/-- A word: at least one byte, and only letters, digits and underscores of ASCII. -/
structure Word (word : Bytes) : Prop where
  ne_nil : word ≠ []
  bytes : ∀ b ∈ word, Bytes.isWordByte b = true

namespace Builder

/-- A builder method that is to be wrapped. -/
structure Named (m : Builder) : Prop where
  receiver : Identifier m.receiver
  case : Identifier m.case
  base : m.base = "expect" ∨ m.base = "with"
  what : Identifier m.what

/-- The names are words, and not just any letters. -/
structure InWords (m : Builder) : Prop where
  receiver : Word m.receiver
  case : Word m.case
  what : Word m.what

/-- What follows the parameters of a method. -/
def ending (m : Builder) (body : Bytes) : Bytes := " " ++ (m.case ++ caseEnding ++ (" \x7b" ++ body))

/-- The line that begins a builder method, up to the body. -/
def line (m : Builder) (body : Bytes) : Bytes :=
  "func (" ++ (m.receiver ++ (" " ++ (m.case ++ caseEnding ++ (") " ++ (m.base ++ m.what ++ ("(" ++
    (m.params ++ 0x29 :: m.ending body)))))))

end Builder

/-! ### Reading words -/

/-- A word ends before a byte that is in no word. -/
theorem readWord?_before {b : UInt8} (hb : ¬Bytes.isWordByte b = true) (text rest : Bytes) :
    readWord? (text ++ b :: rest) = (readWord? text).map fun (word, behind) => (word, behind ++ b :: rest) := by
  have hparts : (text ++ b :: rest).takeWhile Bytes.isWordByte = text.takeWhile Bytes.isWordByte ∧
      (text ++ b :: rest).dropWhile Bytes.isWordByte = text.dropWhile Bytes.isWordByte ++ b :: rest := by
    induction text with
    | nil => exact ⟨List.takeWhile_cons_of_neg hb, List.dropWhile_cons_of_neg hb⟩
    | cons c text ih => by_cases hc : Bytes.isWordByte c <;> simp [hc, ih]
  rw [readWord?, readWord?, hparts.1, hparts.2]
  cases text.takeWhile Bytes.isWordByte <;> rfl

theorem readWord?_append {word : Bytes} (h : Word word) {b : UInt8} (hb : ¬Bytes.isWordByte b = true) (rest : Bytes) :
    readWord? (word ++ b :: rest) = some (word, b :: rest) := by
  obtain ⟨c, more, rfl⟩ := List.exists_cons_of_ne_nil h.ne_nil
  rw [readWord?, List.takeWhile_append_of_pos h.bytes, List.dropWhile_append_of_pos h.bytes,
    List.takeWhile_cons_of_neg hb, List.dropWhile_cons_of_neg hb, List.append_nil]

theorem readWord?_space {word : Bytes} (h : Word word) (rest : Bytes) :
    readWord? (word ++ (Bytes.ofString " " ++ rest)) = some (word, " " ++ rest) := readWord?_append h (by decide) rest

theorem readWord?_closing {word : Bytes} (h : Word word) (rest : Bytes) :
    readWord? (word ++ (Bytes.ofString ") " ++ rest)) = some (word, ") " ++ rest) :=
  readWord?_append h (by decide) (0x20 :: rest)

theorem readWord?_opening {word : Bytes} (h : Word word) (rest : Bytes) :
    readWord? (word ++ (Bytes.ofString "(" ++ rest)) = some (word, "(" ++ rest) := readWord?_append h (by decide) rest

/-- Behind a name that is no word, a word ends too early. -/
theorem dropMark?_of_not_word {name : Bytes} (h : ¬∀ b ∈ name, Bytes.isWordByte b = true) {c : UInt8} (hc : c ∉ name)
    {rest word behind : Bytes} (hread : readWord? (name ++ rest) = some (word, behind)) (mark : Bytes) :
    Bytes.dropMark? (c :: mark) behind = none := by
  obtain ⟨b, hb, hbreak⟩ : ∃ b ∈ name, ¬Bytes.isWordByte b = true := by simpa using h
  obtain ⟨front, back, rfl⟩ := List.append_of_mem hb
  rw [List.append_assoc, List.cons_append, readWord?_before hbreak, Option.map_eq_some_iff] at hread
  obtain ⟨⟨word', behind'⟩, hfront, hpair⟩ := hread
  cases hpair
  have hbehind' : behind' = front.dropWhile Bytes.isWordByte := by
    rw [readWord?] at hfront
    split at hfront <;> cases hfront
    rfl
  -- What is left begins with a byte of the name, and the mark with one that is not in it.
  have hstart : ∀ x ∈ behind' ++ [b], c ≠ x := by
    rintro x hx rfl
    refine hc (List.mem_append.mpr ?_)
    rcases List.mem_append.mp hx with hx | hx
    · exact Or.inl (List.dropWhile_sublist _ |>.subset (hbehind' ▸ hx))
    · exact Or.inr (List.mem_singleton.mp hx ▸ List.mem_cons_self ..)
  cases behind' with
  | nil => exact if_neg (hstart b (by simp))
  | cons x behind' => exact if_neg (hstart x (by simp))

theorem caseOf?_append {case : Bytes} (h : case ≠ []) : caseOf? (case ++ caseEnding) = some case := by
  have hpos := List.length_pos_iff.mpr h
  simp [caseOf?, hpos]

theorem Word.append {word word' : Bytes} (h : Word word) (h' : Word word') : Word (word ++ word') where
  ne_nil := by simp [h.ne_nil]
  bytes := List.forall_mem_append.mpr ⟨h.bytes, h'.bytes⟩

theorem word_caseEnding : Word caseEnding := ⟨by decide, List.all_eq_true.mp rfl⟩

theorem Builder.Named.word_base {m : Builder} (hm : m.Named) : Word m.base := by
  rcases hm.base with hbase | hbase <;> rw [hbase] <;> exact ⟨by decide, List.all_eq_true.mp rfl⟩

theorem methodOf?_append {base what : Bytes} (hbase : base = "expect" ∨ base = "with") (hwhat : what ≠ []) :
    methodOf? (base ++ what) = some (base, what) := by
  obtain ⟨b, rest, rfl⟩ := List.exists_cons_of_ne_nil hwhat
  rcases hbase with rfl | rfl
  · rfl
  · rfl

/-! ### The end of the parameters -/

/-- What is behind a closing parenthesis does not make up for what is missing before it. -/
theorem returned?_before (text rest : Bytes) : returned? (text ++ 0x29 :: rest) = returned? text := by
  have hspace : (0x29 : UInt8) ∉ Bytes.ofString " " := by decide
  have hbrace : (0x29 : UInt8) ∉ Bytes.ofString " \x7b" := by decide
  have hword : ¬Bytes.isWordByte 0x29 = true := by decide
  rw [returned?, returned?, Bytes.dropMark?_before hspace]
  rcases Bytes.dropMark? " " text with _ | text
  · rfl
  · rw [Option.map_some]
    simp only [Option.bind_eq_bind, Option.bind_some, readWord?_before hword]
    rcases readWord? text with _ | ⟨word, behind⟩
    · rfl
    · simp only [Option.map_some, Option.bind_some, Bytes.dropMark?_before hbrace]
      rcases Bytes.dropMark? " \x7b" behind with _ | behind <;> rfl

theorem returned?_ending {m : Builder} (hm : Word m.case) (body : Bytes) : returned? (m.ending body) = some m.case := by
  have hword := readWord?_append (hm.append word_caseEnding) (b := 0x20) (by decide) (0x7B :: body)
  have hbrace : Bytes.dropMark? " \x7b" (0x20 :: 0x7B :: body) = some body := Bytes.dropMark?_append " \x7b" body
  change returned? (" " ++ (m.case ++ caseEnding ++ 0x20 :: 0x7B :: body)) = some m.case
  rw [returned?, Bytes.dropMark?_append]
  simp only [Option.bind_eq_bind, Option.bind_some, hword, caseOf?_append hm.ne_nil, hbrace]
  rfl

/-- The parameters hold what looks like their own end. -/
def EndsEarly (params : Bytes) : Prop :=
  ∃ front back, params = front ++ 0x29 :: back ∧ front ≠ [] ∧ (returned? back).isSome

theorem readParams?_append (taken text rest : Bytes) :
    readParams? taken (text ++ 0x29 :: rest) =
      (readParams? taken text <|> readParams? (text.reverse ++ taken) (0x29 :: rest)) := by
  induction text generalizing taken with
  | nil => rfl
  | cons b text ih =>
    rw [List.cons_append, readParams?, readParams?, returned?_before, ih (b :: taken), List.reverse_cons,
      List.append_assoc, List.singleton_append]
    split <;> rfl

theorem of_readParams? {taken text params case : Bytes} (h : readParams? taken text = some (params, case)) :
    ∃ front back, text = front ++ 0x29 :: back ∧ params = taken.reverse ++ front ∧ params ≠ [] ∧
      returned? back = some case := by
  induction text generalizing taken with
  | nil => cases h
  | cons b rest ih =>
    rw [readParams?] at h
    split at h
    · rename_i case' hend
      cases h
      split at hend
      · rename_i hcond
        rw [Bool.and_eq_true, decide_eq_true_eq] at hcond
        obtain ⟨rfl, htaken⟩ := hcond
        exact ⟨[], rest, rfl, (List.append_nil _).symm, by simpa using htaken, hend⟩
      · cases hend
    · obtain ⟨front, back, rfl, rfl, hne, hback⟩ := ih h
      exact ⟨b :: front, back, rfl, by simp, hne, hback⟩

theorem returned?_of_readParams?_none {taken text : Bytes} (h : readParams? taken text = none) {front back : Bytes}
    (htext : text = front ++ 0x29 :: back) (hne : taken.reverse ++ front ≠ []) : returned? back = none := by
  induction text generalizing taken front with
  | nil => simp at htext
  | cons b rest ih =>
    rw [readParams?] at h
    split at h
    · cases h
    · rename_i hend
      cases front with
      | nil =>
        rw [List.append_nil, ne_eq, List.reverse_eq_nil_iff] at hne
        obtain ⟨rfl, rfl⟩ := List.cons.inj htext
        simpa [hne] using hend
      | cons c front =>
        obtain ⟨rfl, hrest⟩ := List.cons.inj htext
        exact ih h hrest (by simp)

theorem endsEarly_iff {params : Bytes} : EndsEarly params ↔ (readParams? [] params).isSome := by
  cases h : readParams? [] params with
  | none =>
    refine iff_of_false ?_ (by simp)
    rintro ⟨front, back, hsplit, hne, hback⟩
    rw [returned?_of_readParams?_none h hsplit hne] at hback
    cases hback
  | some found =>
    obtain ⟨params', case⟩ := found
    obtain ⟨front, back, hsplit, rfl, hne, hback⟩ := of_readParams? h
    exact iff_of_true ⟨_, back, hsplit, hne, by rw [hback]; rfl⟩ rfl

instance (params : Bytes) : Decidable (EndsEarly params) := decidable_of_iff _ endsEarly_iff.symm

/-! ### Reading the line -/

theorem readBuilder?_line {m : Builder} (hm : m.Named) (hw : m.InWords) (body : Bytes) :
    readBuilder? (m.line body) =
      (readParams? [] (m.params ++ 0x29 :: m.ending body)).map fun (params, returned) =>
        ({ m with params := params }, returned) := by
  rw [readBuilder?, Builder.line, Bytes.dropMark?_append]
  simp only [Option.bind_eq_bind, Option.bind_some, Bytes.dropMark?_append, readWord?_space hw.receiver,
    readWord?_closing (hw.case.append word_caseEnding), caseOf?_append hw.case.ne_nil,
    readWord?_opening (hm.word_base.append hw.what), methodOf?_append hm.base hw.what.ne_nil]
  cases readParams? [] (m.params ++ 0x29 :: m.ending body) <;> rfl

/-! ### Names that are no words -/

theorem readBuilder?_of_receiver {m : Builder} (hm : m.Named) (h : ¬∀ b ∈ m.receiver, Bytes.isWordByte b = true)
    (body : Bytes) : readBuilder? (m.line body) = none := by
  rw [readBuilder?, Builder.line, Bytes.dropMark?_append]
  simp only [Option.bind_eq_bind, Option.bind_some]
  rcases hread : readWord? (m.receiver ++ (Bytes.ofString " " ++ _)) with _ | ⟨word, behind⟩
  · rfl
  · have hdrop : Bytes.dropMark? " " behind = none := dropMark?_of_not_word h hm.receiver.space_not_mem hread []
    rw [Option.bind_some, hdrop]
    rfl

theorem readBuilder?_of_case {m : Builder} (hm : m.Named) (hreceiver : Word m.receiver)
    (h : ¬∀ b ∈ m.case, Bytes.isWordByte b = true) (body : Bytes) : readBuilder? (m.line body) = none := by
  have hname : ¬∀ b ∈ m.case ++ caseEnding, Bytes.isWordByte b = true := fun hname =>
    h fun b hb => hname b (List.mem_append_left _ hb)
  have hclosing : 0x29 ∉ m.case ++ caseEnding := by
    rw [List.mem_append, not_or]
    exact ⟨hm.case.closing_not_mem, by decide⟩
  rw [readBuilder?, Builder.line, Bytes.dropMark?_append]
  simp only [Option.bind_eq_bind, Option.bind_some, readWord?_space hreceiver, Bytes.dropMark?_append]
  rcases hread : readWord? (m.case ++ caseEnding ++ (Bytes.ofString ") " ++ _)) with _ | ⟨word, behind⟩
  · rfl
  · have hdrop : Bytes.dropMark? ") " behind = none := dropMark?_of_not_word hname hclosing hread [0x20]
    rw [Option.bind_some, hdrop]
    cases caseOf? word <;> rfl

theorem readBuilder?_of_what {m : Builder} (hm : m.Named) (hreceiver : Word m.receiver) (hcase : Word m.case)
    (h : ¬∀ b ∈ m.what, Bytes.isWordByte b = true) (body : Bytes) : readBuilder? (m.line body) = none := by
  have hname : ¬∀ b ∈ m.base ++ m.what, Bytes.isWordByte b = true := fun hname =>
    h fun b hb => hname b (List.mem_append_right _ hb)
  have hopening : 0x28 ∉ m.base ++ m.what := by
    rw [List.mem_append, not_or]
    exact ⟨fun hmem => absurd (hm.word_base.bytes _ hmem) (by decide), hm.what.opening_not_mem⟩
  rw [readBuilder?, Builder.line, Bytes.dropMark?_append]
  simp only [Option.bind_eq_bind, Option.bind_some, readWord?_space hreceiver, Bytes.dropMark?_append,
    readWord?_closing (hcase.append word_caseEnding), caseOf?_append hcase.ne_nil]
  rcases hread : readWord? (m.base ++ m.what ++ (Bytes.ofString "(" ++ _)) with _ | ⟨word, behind⟩
  · rfl
  · have hdrop : Bytes.dropMark? "(" behind = none := dropMark?_of_not_word hname hopening hread []
    rw [Option.bind_some, hdrop]
    cases methodOf? word <;> rfl

theorem readBuilder?_of_not_inWords {m : Builder} (hm : m.Named) (h : ¬m.InWords) (body : Bytes) :
    readBuilder? (m.line body) = none := by
  by_cases hreceiver : ∀ b ∈ m.receiver, Bytes.isWordByte b = true
  · by_cases hcase : ∀ b ∈ m.case, Bytes.isWordByte b = true
    · by_cases hwhat : ∀ b ∈ m.what, Bytes.isWordByte b = true
      · exact absurd ⟨⟨hm.receiver.ne_nil, hreceiver⟩, ⟨hm.case.ne_nil, hcase⟩, ⟨hm.what.ne_nil, hwhat⟩⟩ h
      · exact readBuilder?_of_what hm ⟨hm.receiver.ne_nil, hreceiver⟩ ⟨hm.case.ne_nil, hcase⟩ hwhat body
    · exact readBuilder?_of_case hm ⟨hm.receiver.ne_nil, hreceiver⟩ hcase body
  · exact readBuilder?_of_receiver hm hreceiver body

end PostfixLambda.Wrapper
