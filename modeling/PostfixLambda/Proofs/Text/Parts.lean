import PostfixLambda.Proofs.Text.Terminal

/-! Texts cut at a byte and put together again, and the fields of a text that is given by its characters. -/

namespace PostfixLambda

namespace Bytes

/-! ### A mark at the front -/

theorem dropMark?_append (mark rest : Bytes) : dropMark? mark (mark ++ rest) = some rest := by
  induction mark with
  | nil => rfl
  | cons m mark ih => rw [List.cons_append, dropMark?, if_pos rfl, ih]

/-- A mark does not reach a byte that it does not hold. -/
theorem dropMark?_before {mark : Bytes} {c : UInt8} (h : c ∉ mark) (text rest : Bytes) :
    dropMark? mark (text ++ c :: rest) = (dropMark? mark text).map (· ++ c :: rest) := by
  induction mark generalizing text with
  | nil => rfl
  | cons m mark ih =>
    rw [List.mem_cons, not_or] at h
    cases text with
    | nil => rw [List.nil_append, dropMark?, if_neg (Ne.symm h.1), dropMark?, Option.map_none]
    | cons b text =>
      rw [List.cons_append, dropMark?, dropMark?]
      split
      · exact ih h.2 text
      · rfl

/-! ### The parts between the occurrences of a byte -/

theorem splitAt_eq_splitOn (b : UInt8) (text : Bytes) : splitAt b text = text.splitOn b := by
  induction text with
  | nil => rfl
  | cons c rest ih =>
    obtain ⟨part, parts, hparts⟩ := List.exists_cons_of_ne_nil (List.splitOn_ne_nil b rest)
    rw [splitAt, ih, List.splitOn_cons_eq_if_modifyHead, hparts]
    simp only [beq_iff_eq]
    split <;> rfl

theorem splitAt_of_not_mem {b : UInt8} {text : Bytes} (h : b ∉ text) : splitAt b text = [text] := by
  rw [splitAt_eq_splitOn, List.splitOn_eq_singleton h]

theorem splitAt_append (b : UInt8) (front rest : Bytes) :
    splitAt b (front ++ b :: rest) = splitAt b front ++ splitAt b rest := by
  rw [splitAt_eq_splitOn, splitAt_eq_splitOn, splitAt_eq_splitOn, List.splitOn_append_cons_self]

theorem splitAt_ne_nil (b : UInt8) (text : Bytes) : splitAt b text ≠ [] := by
  rw [splitAt_eq_splitOn]
  exact List.splitOn_ne_nil b text

theorem not_mem_of_mem_splitAt {b : UInt8} {text part : Bytes} (h : part ∈ splitAt b text) : b ∉ part := by
  by_cases hb : b ∈ text
  · obtain ⟨front, rest, rfl, hfront⟩ := List.eq_append_cons_of_mem hb
    rw [splitAt_append, splitAt_of_not_mem hfront, List.singleton_append, List.mem_cons] at h
    rcases h with rfl | h
    · exact hfront
    · exact not_mem_of_mem_splitAt h
  · rw [splitAt_of_not_mem hb, List.mem_singleton] at h
    exact h ▸ hb
termination_by text.length

/-- Pieces that are joined by a byte are cut where they were joined, and where they hold the byte themselves. -/
theorem splitAt_joinWith {b : UInt8} {pieces : List Bytes} (h : pieces ≠ []) :
    splitAt b (joinWith [b] pieces) = pieces.flatMap (splitAt b) := by
  match pieces with
  | [] => exact absurd rfl h
  | [piece] => rw [joinWith, List.flatMap_singleton]
  | piece :: next :: pieces =>
    have hrest := splitAt_joinWith (b := b) (List.cons_ne_nil next pieces)
    rw [joinWith, List.append_assoc, List.singleton_append, splitAt_append, hrest, List.flatMap_cons (x := piece)]

theorem flatMap_splitAt_of_not_mem {b : UInt8} {pieces : List Bytes} (h : ∀ piece ∈ pieces, b ∉ piece) :
    pieces.flatMap (splitAt b) = pieces := by
  induction pieces with
  | nil => rfl
  | cons piece pieces ih =>
    rw [List.forall_mem_cons] at h
    rw [List.flatMap_cons, splitAt_of_not_mem h.1, ih h.2, List.singleton_append]

theorem length_splitAt_pos (b : UInt8) (text : Bytes) : 0 < (splitAt b text).length :=
  List.length_pos_iff.mpr (splitAt_ne_nil b text)

theorem length_le_flatMap_splitAt (b : UInt8) (pieces : List Bytes) :
    pieces.length ≤ (pieces.flatMap (splitAt b)).length := by
  induction pieces with
  | nil => exact Nat.zero_le _
  | cons piece pieces ih =>
    have hone := length_splitAt_pos b piece
    rw [List.flatMap_cons, List.length_append, List.length_cons]
    omega

/-- Where a piece holds the byte, there are more parts than pieces. -/
theorem not_mem_of_length_flatMap {b : UInt8} {pieces : List Bytes}
    (h : (pieces.flatMap (splitAt b)).length = pieces.length) : ∀ piece ∈ pieces, b ∉ piece := by
  intro piece hpiece hb
  obtain ⟨before, after, rfl⟩ := List.append_of_mem hpiece
  obtain ⟨front, rest, rfl, -⟩ := List.eq_append_cons_of_mem hb
  have hbefore := length_le_flatMap_splitAt b before
  have hafter := length_le_flatMap_splitAt b after
  have hfront := length_splitAt_pos b front
  have hrest := length_splitAt_pos b rest
  simp only [List.flatMap_append, List.flatMap_cons, splitAt_append, List.length_append, List.length_cons] at h
  omega

/-- Words are told apart from their text, if the byte that begins each separator is in none of them. -/
theorem joinWith_inj {b : UInt8} {sep : Bytes} {words words' : List Bytes} (hne : words ≠ []) (hne' : words' ≠ [])
    (h : ∀ word ∈ words, b ∉ word) (h' : ∀ word ∈ words', b ∉ word)
    (hjoin : joinWith (b :: sep) words = joinWith (b :: sep) words') : words = words' := by
  match words, words' with
  | [], _ => exact absurd rfl hne
  | _, [] => exact absurd rfl hne'
  | [word], [word'] => exact congrArg ([·]) hjoin
  | [word], word' :: next :: rest =>
    rw [joinWith, joinWith] at hjoin
    exact absurd (by simp [hjoin]) (h word (List.mem_singleton_self word))
  | word :: next :: rest, [word'] =>
    rw [joinWith, joinWith] at hjoin
    exact absurd (by simp [← hjoin]) (h' word' (List.mem_singleton_self word'))
  | word :: next :: rest, word' :: next' :: rest' =>
    rw [List.forall_mem_cons] at h h'
    simp only [joinWith, List.append_assoc, List.cons_append] at hjoin
    have hparts := congrArg (splitAt b) hjoin
    rw [splitAt_append, splitAt_append, splitAt_of_not_mem h.1, splitAt_of_not_mem h'.1] at hparts
    obtain rfl : word = word' := (List.cons.inj hparts).1
    have hlater := List.append_cancel_left (List.cons.inj (List.append_cancel_left hjoin)).2
    rw [joinWith_inj (List.cons_ne_nil next rest) (List.cons_ne_nil next' rest') h.2 h'.2 hlater]

end Bytes

/-! ### Fields of characters -/

namespace Utf8

theorem runes_encode (cs : List Char) : runes (encode cs) = cs.map fun c => ⟨c, Bytes.ofChar c⟩ := by
  induction cs with
  | nil => exact runes_nil
  | cons c cs ih =>
    rw [encode, List.flatMap_cons, runes_ofChar_append, List.map_cons]
    exact congrArg (⟨c, Bytes.ofChar c⟩ :: ·) ih

theorem encode_inj {cs ds : List Char} (h : encode cs = encode ds) : cs = ds := by
  rw [← chars_encode cs, h, chars_encode]

theorem encode_ne_nil {cs : List Char} (h : cs ≠ []) : encode cs ≠ [] := fun hnil => h (encode_inj hnil)

theorem flatMap_raw_map (cs : List Char) :
    (cs.map fun c => (⟨c, Bytes.ofChar c⟩ : Rune)).flatMap Rune.raw = encode cs := by
  rw [List.flatMap_map, encode]

theorem mem_encode_ascii {cs : List Char} {b : UInt8} (hb : b.toNat < 0x80) (h : b ∈ encode cs) :
    Char.ofNat b.toNat ∈ cs := by
  obtain ⟨c, hc, hmem⟩ := List.mem_flatMap.mp h
  rw [← toNat_of_mem_ofChar hmem hb, Char.ofNat_toNat]
  exact hc

end Utf8

namespace Text

open Utf8

theorem mem_of_mem_fields {text word : Bytes} (h : word ∈ fields text) : ∀ b ∈ word, b ∈ text := by
  obtain ⟨pre, mid, post, hsplit, rfl, -⟩ := runes_of_mem_fieldsFrom [] h (by simp)
  have hbytes := flatMap_raw_runes text
  rw [List.nil_append] at hsplit
  intro b hb
  rw [← hbytes, hsplit, List.flatMap_append, List.flatMap_append]
  exact List.mem_append_right _ (List.mem_append_left _ hb)

theorem fields_blanks {lead : List Char} (h : ∀ c ∈ lead, isBlank c = true) (cs : List Char) :
    fields (encode (lead ++ cs)) = fields (encode cs) := by
  induction lead with
  | nil => rfl
  | cons c lead ih =>
    rw [List.forall_mem_cons] at h
    rw [← ih h.2, fields, runes_encode, fields, runes_encode]
    simp [fieldsFrom, h.1]

/-- The first field is the word at the front, up to the end or a blank. -/
theorem fields_word {word rest : List Char} (hne : word ≠ []) (h : ∀ c ∈ word, isBlank c = false)
    (hrest : ∀ c ∈ rest.head?, isBlank c = true) :
    fields (encode (word ++ rest)) = encode word :: fields (encode rest) := by
  have hbytes := encode_ne_nil hne
  have hword : ∀ r ∈ word.map fun c => (⟨c, Bytes.ofChar c⟩ : Rune), isBlank r.char = false :=
    List.forall_mem_map.mpr h
  rw [fields, runes_encode, List.map_append, fieldsFrom_append hword, flatMap_raw_map, List.append_nil, fields,
    runes_encode]
  cases rest with
  | nil => simp [fieldsFrom, hbytes]
  | cons c rest =>
    have hblank := hrest c rfl
    simp [fieldsFrom, hblank, hbytes]

end Text

end PostfixLambda
