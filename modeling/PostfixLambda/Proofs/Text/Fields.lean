import PostfixLambda.Text.Blank

/-! Words are read back from a text that they were written to with a blank between two neighbours. A text falls into
    runes from the left, and a byte of ASCII never belongs to a longer rune: so a text is cut before such a byte into
    two that are read apart, and a word cut out of a text reads by itself as it did there. -/

namespace PostfixLambda

namespace Utf8

theorem toNat_ofNat_byte (b : UInt8) : (Char.ofNat b.toNat).toNat = b.toNat := by
  have hlt := b.toNat_lt
  have hvalid : b.toNat.isValidChar := Or.inl (by omega)
  rw [Char.ofNat, dif_pos hvalid]
  rfl

/-! ### The rune at the front -/

theorem first_ascii {c : UInt8} (hc : c < 0x80) (rest : Bytes) : first c rest = ⟨Char.ofNat c.toNat, [c]⟩ := by
  simp only [first, hc, if_true]

theorem isTail_ascii {c : UInt8} (hc : c < 0x80) : isTail c = false := by
  simp only [isTail, Bool.and_eq_false_iff, decide_eq_false_iff_not]
  exact Or.inl (by grind)

theorem mayFollow_ascii {c : UInt8} (hc : c < 0x80) (b : UInt8) : mayFollow b c = false := by
  have htail := isTail_ascii hc
  unfold mayFollow
  grind

/-- The rune at the front of a text is read from bytes at the front of the text. -/
theorem first_raw (b : UInt8) (rest : Bytes) :
    ∃ tail, (first b rest).raw = b :: tail ∧ rest = tail ++ rest.drop ((first b rest).size - 1) := by
  unfold first
  repeat' split
  all_goals first | exact ⟨[], rfl, rfl⟩ | exact ⟨_, rfl, rfl⟩

/-- What the front rune is does not depend on the bytes after it. -/
theorem first_of_append {b : UInt8} {t u : Bytes} (h : (first b (t ++ u)).size ≤ t.length + 1) :
    first b t = first b (t ++ u) := by
  match t with
  | [] =>
    simp only [List.nil_append, first] at h ⊢
    grind [Rune.size, Rune.malformed]
  | [x] =>
    simp only [first] at h ⊢
    grind [Rune.size, Rune.malformed]
  | [x, y] =>
    simp only [first] at h ⊢
    grind [Rune.size, Rune.malformed]
  | x :: y :: z :: t => rfl

theorem first_append_ascii {c : UInt8} (hc : c < 0x80) (b : UInt8) (t rest : Bytes) :
    first b (t ++ c :: rest) = first b t := by
  have htail := isTail_ascii hc
  have hfollow := mayFollow_ascii hc b
  match t with
  | [] =>
    simp only [List.nil_append, first]
    grind
  | [x] =>
    simp only [List.cons_append, List.nil_append, first]
    grind
  | [x, y] =>
    simp only [List.cons_append, List.nil_append, first]
    grind
  | x :: y :: z :: t => rfl

/-! ### The runes of parts of a text -/

theorem runes_nil : runes [] = [] := by rw [runes]

theorem runes_cons (b : UInt8) (rest : Bytes) :
    runes (b :: rest) = first b rest :: runes (rest.drop ((first b rest).size - 1)) := by
  rw [runes]

theorem flatMap_raw_runes (text : Bytes) : (runes text).flatMap Rune.raw = text := by
  fun_induction runes text with
  | case1 => rfl
  | case2 b rest r ih =>
    obtain ⟨tail, hraw, hrest⟩ := first_raw b rest
    rw [List.flatMap_cons, ih]
    change (first b rest).raw ++ rest.drop ((first b rest).size - 1) = b :: rest
    rw [hraw, List.cons_append, ← hrest]

theorem runes_append_ascii {c : UInt8} (hc : c < 0x80) (text rest : Bytes) :
    runes (text ++ c :: rest) = runes text ++ runes (c :: rest) := by
  fun_induction runes text with
  | case1 => rfl
  | case2 b text r ih =>
    obtain ⟨tail, hraw, htext⟩ := first_raw b text
    have hsize : (first b text).size - 1 ≤ text.length := by
      rw [Rune.size, hraw, htext]
      simp
    rw [List.cons_append, runes_cons, first_append_ascii hc, List.drop_append_of_le_length hsize]
    exact congrArg (first b text :: ·) ih

theorem runes_ascii {c : UInt8} (hc : c < 0x80) (rest : Bytes) :
    runes (c :: rest) = ⟨Char.ofNat c.toNat, [c]⟩ :: runes rest := by
  rw [runes_cons, first_ascii hc]
  rfl

/-- The runes of a text up to some point are those of its bytes up to there. -/
theorem runes_of_front {text : Bytes} {rs rest : List Rune} (h : runes text = rs ++ rest) :
    runes (rs.flatMap Rune.raw) = rs := by
  induction rs generalizing text with
  | nil => exact runes_nil
  | cons r rs ih =>
    match text with
    | [] =>
      rw [runes_nil] at h
      cases h
    | b :: text =>
      rw [runes_cons, List.cons_append] at h
      obtain ⟨rfl, hrest⟩ := List.cons.inj h
      obtain ⟨tail, hraw, htext⟩ := first_raw b text
      have hsize : (first b text).size = tail.length + 1 := by rw [Rune.size, hraw, List.length_cons]
      -- The bytes after the first rune are those of `rs` and then those of `rest`.
      have hbytes := flatMap_raw_runes (text.drop ((first b text).size - 1))
      rw [hrest, List.flatMap_append] at hbytes
      rw [← hbytes, ← List.append_assoc] at htext
      have hfirst : first b (tail ++ rs.flatMap Rune.raw) = first b text := by
        rw [first_of_append (u := rest.flatMap Rune.raw), ← htext]
        rw [← htext, hsize]
        simp
      rw [List.flatMap_cons, hraw, List.cons_append, runes_cons, hfirst, hsize, Nat.add_sub_cancel, List.drop_left,
        ih hrest]

theorem runes_of_back {text : Bytes} {rs rest : List Rune} (h : runes text = rs ++ rest) :
    runes (rest.flatMap Rune.raw) = rest := by
  induction rs generalizing text with
  | nil =>
    have hbytes := flatMap_raw_runes text
    rw [List.nil_append] at h
    rw [h] at hbytes
    rw [hbytes, h]
  | cons r rs ih =>
    match text with
    | [] =>
      rw [runes_nil] at h
      cases h
    | b :: text =>
      rw [runes_cons, List.cons_append] at h
      exact ih (List.cons.inj h).2

end Utf8

namespace Text

open Utf8

/-- A word: a text with something in it and no white space. -/
def Solid (word : Bytes) : Prop := word ≠ [] ∧ ∀ r ∈ runes word, isBlank r.char = false

theorem isBlank_ascii {b : UInt8} (hlow : 0x20 < b) (hhigh : b < 0x80) : isBlank (Char.ofNat b.toNat) = false := by
  have hlow' : 0x20 < b.toNat := hlow
  have hhigh' : b.toNat < 0x80 := hhigh
  have hcode := toNat_ofNat_byte b
  simp only [isBlank, hcode, Bool.or_eq_false_iff, Bool.and_eq_false_iff, decide_eq_false_iff_not]
  omega

theorem solid_of_ascii {word : Bytes} (hne : word ≠ []) (h : ∀ b ∈ word, 0x20 < b ∧ b < 0x80) : Solid word := by
  refine ⟨hne, ?_⟩
  clear hne
  induction word with
  | nil => simp [runes_nil]
  | cons b word ih =>
    rw [List.forall_mem_cons] at h
    rw [runes_ascii h.1.2, List.forall_mem_cons]
    exact ⟨isBlank_ascii h.1.1 h.1.2, ih h.2⟩

theorem solid_byte {b : UInt8} (h : 0x20 < b ∧ b < 0x80) : Solid [b] :=
  solid_of_ascii (List.cons_ne_nil _ _) (List.forall_mem_singleton.mpr h)

theorem Solid.append_ascii {word : Bytes} (h : Solid word) {c : UInt8} (hlow : 0x20 < c) (hhigh : c < 0x80) :
    Solid (word ++ [c]) := by
  refine ⟨by simp, ?_⟩
  rw [runes_append_ascii hhigh, runes_ascii hhigh, runes_nil, List.forall_mem_append, List.forall_mem_singleton]
  exact ⟨h.2, isBlank_ascii hlow hhigh⟩

/-! ### Fields are words -/

/-- A field is the text of some consecutive runes without white space. -/
theorem runes_of_mem_fieldsFrom (front : List Rune) {rs : List Rune} {word : Bytes}
    (h : word ∈ fieldsFrom (front.flatMap Rune.raw).reverse rs) (hfront : ∀ r ∈ front, isBlank r.char = false) :
    ∃ pre mid post, front ++ rs = pre ++ (mid ++ post) ∧ word = mid.flatMap Rune.raw ∧ word ≠ [] ∧
      ∀ r ∈ mid, isBlank r.char = false := by
  -- `front` are the runes of the field under way.
  induction rs generalizing front with
  | nil =>
    simp only [fieldsFrom, List.isEmpty_iff, List.reverse_eq_nil_iff, List.reverse_reverse] at h
    split at h
    · cases h
    · rename_i hne
      rw [List.mem_singleton] at h
      exact ⟨[], front, [], by simp, h, h ▸ hne, hfront⟩
  | cons r rs ih =>
    have hafter : word ∈ fieldsFrom [] rs → ∃ pre mid post, front ++ r :: rs = pre ++ (mid ++ post) ∧
        word = mid.flatMap Rune.raw ∧ word ≠ [] ∧ ∀ r ∈ mid, isBlank r.char = false := by
      intro hmem
      obtain ⟨pre, mid, post, hsplit, hword⟩ := ih [] hmem (by simp)
      exact ⟨front ++ r :: pre, mid, post, by simpa using hsplit, hword⟩
    simp only [fieldsFrom, List.isEmpty_iff, List.reverse_eq_nil_iff, List.reverse_reverse] at h
    split at h
    · split at h
      · exact hafter h
      · rename_i hne
        rcases List.mem_cons.mp h with rfl | h
        · exact ⟨[], front, r :: rs, rfl, rfl, hne, hfront⟩
        · exact hafter h
    · rename_i hblank
      have hlonger : r.raw.reverse ++ (front.flatMap Rune.raw).reverse = ((front ++ [r]).flatMap Rune.raw).reverse := by
        simp
      rw [hlonger] at h
      obtain ⟨pre, mid, post, hsplit, hword⟩ := ih (front ++ [r]) h <| by
        intro r' hr'
        rcases List.mem_append.mp hr' with hr' | hr'
        · exact hfront r' hr'
        · rw [List.mem_singleton.mp hr']
          simpa using hblank
      exact ⟨pre, mid, post, by simpa using hsplit, hword⟩

theorem solid_of_mem_fields {text word : Bytes} (h : word ∈ fields text) : Solid word := by
  obtain ⟨pre, mid, post, hsplit, rfl, hne, hmid⟩ := runes_of_mem_fieldsFrom [] h (by simp)
  have hback := runes_of_back hsplit
  refine ⟨hne, ?_⟩
  rw [runes_of_front hback]
  exact hmid

/-! ### Fields of joined words -/

theorem fieldsFrom_append {rs : List Rune} (hrs : ∀ r ∈ rs, isBlank r.char = false) (word : Bytes) (rest : List Rune) :
    fieldsFrom word (rs ++ rest) = fieldsFrom ((rs.flatMap Rune.raw).reverse ++ word) rest := by
  induction rs generalizing word with
  | nil => rfl
  | cons r rs ih =>
    rw [List.forall_mem_cons] at hrs
    have hstep : fieldsFrom word (r :: (rs ++ rest)) = fieldsFrom (r.raw.reverse ++ word) (rs ++ rest) := by
      simp [fieldsFrom, hrs.1]
    rw [List.cons_append, hstep, ih hrs.2]
    simp

theorem fields_of_solid {word : Bytes} (h : Solid word) : fields word = [word] := by
  have hfrom := fieldsFrom_append h.2 [] []
  rw [List.append_nil, flatMap_raw_runes, List.append_nil] at hfrom
  rw [fields, hfrom]
  simp [fieldsFrom, h.1]

theorem fields_append_space {word : Bytes} (h : Solid word) (rest : Bytes) :
    fields (word ++ 0x20 :: rest) = word :: fields rest := by
  have hspace : runes (0x20 :: rest) = ⟨' ', [0x20]⟩ :: runes rest := runes_ascii (by decide) rest
  have hblank : isBlank ' ' = true := by decide
  rw [fields, runes_append_ascii (by decide), fieldsFrom_append h.2, flatMap_raw_runes, hspace, List.append_nil]
  simp [fieldsFrom, hblank, h.1, fields]

/-- The fields of words joined by blanks are the words. -/
theorem fields_joinWith {words : List Bytes} (h : ∀ word ∈ words, Solid word) :
    fields (Bytes.joinWith [0x20] words) = words := by
  match words with
  | [] => rw [Bytes.joinWith, fields, runes_nil]; rfl
  | [word] => exact fields_of_solid (h word (List.mem_singleton.mpr rfl))
  | word :: next :: words =>
    rw [List.forall_mem_cons] at h
    rw [Bytes.joinWith, List.append_assoc, List.singleton_append, fields_append_space h.1, fields_joinWith h.2]

end Text

end PostfixLambda
