import PostfixLambda.Proofs.Text.Parts
import PostfixLambda.Wrapper.Builder

/-! Parameter lists as they are written, and what is passed on for them. Parameters are told apart by their commas and
    their names by the blanks behind them, so a comma within a type is taken for the end of a parameter, and a type that
    is joined to its name for part of the name; nothing else in a type matters. -/

namespace PostfixLambda.Wrapper

open Utf8 Text

/-! ### Parameters as they are written -/

structure Blanks where
  chars : List Char
  blank : ∀ c ∈ chars, isBlank c = true

structure Name where
  chars : List Char
  ne_nil : chars ≠ []
  solid : ∀ c ∈ chars, isBlank c = false
  comma_not_mem : ',' ∉ chars
  dot_not_mem : '.' ∉ chars

/-- A type as it is written: anything that begins with neither a blank nor a dot. -/
structure TypeText where
  first : Char
  rest : List Char
  solid : isBlank first = false
  ne_dot : first ≠ '.'

/-- A parameter as it is written in a list: with its type, and with the dots before it if it is variadic, or without, if
    it shares the type of a later one. -/
inductive Param where
  | sharing (lead : Blanks) (name : Name) (trail : Blanks)
  | typed (lead : Blanks) (name : Name) (gap : Blanks) (type : TypeText)
  | variadic (lead : Blanks) (name : Name) (gap afterDots : Blanks) (type : TypeText)

theorem solid_of_any {cs : List Char} (h : cs.any isBlank = false) : ∀ c ∈ cs, isBlank c = false := by
  simpa using h

def TypeText.chars (t : TypeText) : List Char := t.first :: t.rest

/-- The dots of a variadic parameter. -/
def dots : List Char := ['.', '.', '.']

namespace Param

def lead : Param → Blanks
  | sharing lead .. | typed lead .. | variadic lead .. => lead

def name : Param → Name
  | sharing _ name _ | typed _ name .. | variadic _ name .. => name

/-- What follows the name. -/
def behind : Param → List Char
  | sharing _ _ trail => trail.chars
  | typed _ _ gap type => gap.chars ++ type.chars
  | variadic _ _ gap afterDots type => gap.chars ++ (dots ++ (afterDots.chars ++ type.chars))

def chars (p : Param) : List Char := p.lead.chars ++ (p.name.chars ++ p.behind)

def text (p : Param) : Bytes := encode p.chars

/-- What has to be passed on for the parameter. -/
def argument (p : Param) : Bytes :=
  match p with
  | sharing .. | typed .. => encode p.name.chars
  | variadic .. => encode (p.name.chars ++ dots)

/-- A blank stands behind the name, or at least behind the dots that are written without one. -/
def SetOff : Param → Prop
  | sharing .. => True
  | typed _ _ gap _ => gap.chars ≠ []
  | variadic _ _ gap afterDots _ => gap.chars ≠ [] ∨ afterDots.chars ≠ []

/-- No comma is in the type. -/
def CommaFree : Param → Prop
  | sharing .. => True
  | typed _ _ _ type | variadic _ _ _ _ type => ',' ∉ type.chars

instance (p : Param) : Decidable p.SetOff := by
  cases p <;> unfold SetOff <;> infer_instance

instance (p : Param) : Decidable p.CommaFree := by
  cases p <;> unfold CommaFree <;> infer_instance

end Param

/-- The text of a list of parameters. -/
def paramsText (params : List Param) : Bytes := Bytes.joinWith "," (params.map Param.text)

/-- What has to be passed on for a list of parameters. -/
def passedOn (params : List Param) : Bytes := Bytes.joinWith ", " (params.map Param.argument)

/-! ### Commas -/

theorem Blanks.comma_not_mem (b : Blanks) : ',' ∉ b.chars := fun h => by
  have hblank : isBlank ',' = false := by decide
  rw [b.blank _ h] at hblank
  cases hblank

theorem comma_mem_encode {cs : List Char} : (0x2C : UInt8) ∈ encode cs ↔ ',' ∈ cs := by
  refine ⟨fun h => mem_encode_ascii (by decide) h, fun h => List.mem_flatMap.mpr ⟨',', h, ?_⟩⟩
  decide

theorem Param.comma_mem_text {p : Param} : (0x2C : UInt8) ∈ p.text ↔ ¬p.CommaFree := by
  have hdots : ',' ∉ dots := by decide
  rw [text, comma_mem_encode, chars]
  cases p with
  | sharing lead name trail => simp [behind, CommaFree, Param.lead, Param.name, Blanks.comma_not_mem, Name.comma_not_mem]
  | typed lead name gap type =>
    simp [behind, CommaFree, Param.lead, Param.name, Blanks.comma_not_mem, Name.comma_not_mem]
  | variadic lead name gap afterDots type =>
    simp [behind, CommaFree, Param.lead, Param.name, Blanks.comma_not_mem, Name.comma_not_mem, hdots]

theorem Param.comma_not_mem_argument (p : Param) : (0x2C : UInt8) ∉ p.argument := by
  have hname : (0x2C : UInt8) ∉ encode p.name.chars := fun h => p.name.comma_not_mem (comma_mem_encode.mp h)
  cases p with
  | sharing | typed => exact hname
  | variadic =>
    rw [argument, encode_append, List.mem_append, not_or]
    exact ⟨hname, by decide⟩

/-! ### What is passed on for one parameter -/

/-- The characters up to the first blank, and those from there on. -/
theorem exists_word (cs : List Char) :
    ∃ w rest, cs = w ++ rest ∧ (∀ c ∈ w, isBlank c = false) ∧ ∀ c ∈ rest.head?, isBlank c = true := by
  induction cs with
  | nil => exact ⟨[], [], rfl, by simp, by simp⟩
  | cons c cs ih =>
    cases hc : isBlank c with
    | true => exact ⟨[], c :: cs, rfl, by simp, by simp [hc]⟩
    | false =>
      obtain ⟨w, rest, rfl, hw, hrest⟩ := ih
      exact ⟨c :: w, rest, rfl, List.forall_mem_cons.mpr ⟨hc, hw⟩, hrest⟩

theorem blank_head_append {gap : List Char} (hne : gap ≠ []) (hgap : ∀ c ∈ gap, isBlank c = true) (cs : List Char) :
    ∀ c ∈ (gap ++ cs).head?, isBlank c = true := by
  cases gap with
  | nil => exact absurd rfl hne
  | cons b gap =>
    rintro c hc
    cases hc
    exact hgap b (List.mem_cons_self ..)

/-- Whether the next field begins with dots. -/
def marked (cs : List Char) : Bool := ((fields (encode cs)).head?.bind (Bytes.dropMark? "...")).isSome

theorem marked_of_blanks {cs : List Char} (h : ∀ c ∈ cs, isBlank c = true) : marked cs = false := by
  have hblanks := fields_blanks h []
  rw [List.append_nil] at hblanks
  rw [marked, hblanks, encode, List.flatMap_nil, fields, runes_nil]
  rfl

theorem marked_word {gap front : List Char} (hgap : ∀ c ∈ gap, isBlank c = true) (hne : front ≠ [])
    (hfront : ∀ c ∈ front, isBlank c = false) (cs : List Char) :
    ∃ w, marked (gap ++ (front ++ cs)) = (Bytes.dropMark? "..." (encode (front ++ w))).isSome := by
  obtain ⟨w, rest, rfl, hw, hrest⟩ := exists_word cs
  have hword : fields (encode (front ++ (w ++ rest))) = encode (front ++ w) :: fields (encode rest) := by
    rw [← List.append_assoc]
    exact fields_word (by simp [hne]) (List.forall_mem_append.mpr ⟨hfront, hw⟩) hrest
  exact ⟨w, by rw [marked, fields_blanks hgap, hword]; rfl⟩

theorem marked_type {gap : List Char} (hgap : ∀ c ∈ gap, isBlank c = true) (type : TypeText) :
    marked (gap ++ type.chars) = false := by
  obtain ⟨w, hmarked⟩ := marked_word hgap (List.cons_ne_nil type.first [])
    (List.forall_mem_singleton.mpr type.solid) type.rest
  change marked (gap ++ ([type.first] ++ type.rest)) = false
  rw [hmarked, Option.isSome_eq_false_iff, Option.isNone_iff_eq_none]
  have hfirst : (0x2E : UInt8) ∉ encode [type.first] := fun hmem =>
    type.ne_dot (List.mem_singleton.mp (mem_encode_ascii (by decide) hmem)).symm
  obtain ⟨b, bytes, hbytes⟩ := List.exists_cons_of_ne_nil (encode_ne_nil (List.cons_ne_nil type.first []))
  rw [hbytes, List.mem_cons, not_or] at hfirst
  rw [encode_append, hbytes, List.cons_append]
  exact if_neg hfirst.1

theorem marked_dots {gap : List Char} (hgap : ∀ c ∈ gap, isBlank c = true) (cs : List Char) :
    marked (gap ++ (dots ++ cs)) = true := by
  obtain ⟨w, hmarked⟩ := marked_word hgap (List.cons_ne_nil '.' ['.', '.']) (solid_of_any rfl) cs
  have hdots : Bytes.dropMark? "..." (encode (dots ++ w)) = some (encode w) := by
    rw [encode_append]
    exact Bytes.dropMark?_append "..." (encode w)
  exact hmarked.trans (congrArg Option.isSome hdots)

variable {lead word rest : List Char}

/-- The field at the front is passed on, with the dots if the next one begins with them. -/
theorem argumentOf?_word (hlead : ∀ c ∈ lead, isBlank c = true) (hne : word ≠ []) (hword : ∀ c ∈ word, isBlank c = false)
    (hrest : ∀ c ∈ rest.head?, isBlank c = true) :
    argumentOf? (encode (lead ++ (word ++ rest))) = some (encode (word ++ if marked rest then dots else [])) := by
  rw [argumentOf?, fields_blanks hlead, fields_word hne hword hrest]
  cases hfields : fields (encode rest) with
  | nil =>
    have hmarked : marked rest = false := by rw [marked, hfields]; rfl
    simp [hmarked]
  | cons type more =>
    have hmarked : marked rest = (Bytes.dropMark? "..." type).isSome := by rw [marked, hfields]; rfl
    change some (if (Bytes.dropMark? "..." type).isSome then encode word ++ "..." else encode word) = _
    rw [hmarked]
    by_cases hdots : (Bytes.dropMark? "..." type).isSome
    · rw [if_pos hdots, if_pos hdots, encode_append]
      rfl
    · rw [if_neg hdots, if_neg hdots, List.append_nil]

/-- A word is not passed on by itself where the text goes on without a blank. -/
theorem argumentOf?_joined (hlead : ∀ c ∈ lead, isBlank c = true) (hword : ∀ c ∈ word, isBlank c = false) {c : Char}
    (hc : isBlank c = false) (cs : List Char) :
    argumentOf? (encode (lead ++ (word ++ c :: cs))) ≠ some (encode word) := by
  obtain ⟨w, rest, rfl, hw, hrest⟩ := exists_word cs
  have hlonger : ∀ c' ∈ word ++ c :: w, isBlank c' = false :=
    List.forall_mem_append.mpr ⟨hword, List.forall_mem_cons.mpr ⟨hc, hw⟩⟩
  -- The field goes on at least with the character behind the word.
  intro h
  rw [← List.cons_append, ← List.append_assoc word, argumentOf?_word hlead (by simp) hlonger hrest] at h
  have hsame := encode_inj (Option.some.inj h)
  rw [List.append_assoc, List.append_right_eq_self] at hsame
  exact List.cons_ne_nil _ _ hsame

/-- The right thing is passed on for a parameter exactly if its name is set off. -/
theorem Param.argumentOf?_text (p : Param) : argumentOf? p.text = some p.argument ↔ p.SetOff := by
  cases p with
  | sharing lead name trail =>
    have h := argumentOf?_word lead.blank name.ne_nil name.solid fun c hc => trail.blank c (List.mem_of_mem_head? hc)
    rw [marked_of_blanks trail.blank, if_neg Bool.false_ne_true, List.append_nil] at h
    exact iff_of_true h trivial
  | typed lead name gap type =>
    by_cases hgap : gap.chars = []
    · have hjoined := argumentOf?_joined lead.blank name.solid type.solid type.rest
      rw [text, chars, behind, hgap]
      exact iff_of_false hjoined fun hset => hset hgap
    · have h := argumentOf?_word lead.blank name.ne_nil name.solid (blank_head_append hgap gap.blank type.chars)
      rw [marked_type gap.blank, if_neg Bool.false_ne_true, List.append_nil] at h
      exact iff_of_true h hgap
  | variadic lead name gap afterDots type =>
    by_cases hgap : gap.chars = []
    · have hword : ∀ c ∈ name.chars ++ dots, isBlank c = false :=
        List.forall_mem_append.mpr ⟨name.solid, solid_of_any rfl⟩
      rw [text, chars, behind, hgap, List.nil_append, ← List.append_assoc (Param.name _).chars]
      by_cases hafter : afterDots.chars = []
      · have hjoined := argumentOf?_joined lead.blank hword type.solid type.rest
        rw [hafter]
        exact iff_of_false hjoined fun hset => hset.elim (· hgap) (· hafter)
      · have h := argumentOf?_word lead.blank (by simp [dots]) hword
          (blank_head_append hafter afterDots.blank type.chars)
        rw [marked_type afterDots.blank, if_neg Bool.false_ne_true, List.append_nil] at h
        exact iff_of_true h (Or.inr hafter)
    · have h := argumentOf?_word lead.blank name.ne_nil name.solid
        (blank_head_append hgap gap.blank (dots ++ (afterDots.chars ++ type.chars)))
      rw [marked_dots gap.blank, if_pos rfl] at h
      exact iff_of_true h (Or.inl hgap)

/-! ### What is passed on for a list -/

theorem mapM_eq_some_iff {α β : Type} {f : α → Option β} {xs : List α} {ys : List β} :
    xs.mapM f = some ys ↔ xs.map f = ys.map some := by
  induction xs generalizing ys with
  | nil => cases ys <;> simp
  | cons x xs ih =>
    rw [List.mapM_cons, List.map_cons]
    cases ys with
    | nil => cases hx : f x <;> cases hxs : xs.mapM f <;> simp
    | cons y ys =>
      rw [List.map_cons, List.cons.injEq, ← ih]
      cases hx : f x <;> cases hxs : xs.mapM f <;> simp

theorem comma_not_mem_of_argumentOf? {param argument : Bytes} (h : (0x2C : UInt8) ∉ param)
    (hargument : argumentOf? param = some argument) : (0x2C : UInt8) ∉ argument := by
  rw [argumentOf?] at hargument
  split at hargument
  · cases hargument
  · rename_i name hfields
    cases hargument
    exact fun hmem => h (mem_of_mem_fields (by simp [hfields]) _ hmem)
  · rename_i name type more hfields
    cases hargument
    have hname : (0x2C : UInt8) ∉ name := fun hmem => h (mem_of_mem_fields (by simp [hfields]) _ hmem)
    split
    · rw [List.mem_append, not_or]
      exact ⟨hname, by decide⟩
    · exact hname

/-- The right things are passed on exactly if no comma is in a type and all names are set off. -/
theorem argumentsOf?_iff {params : List Param} (hne : params ≠ []) :
    argumentsOf? (paramsText params) = some (passedOn params) ↔ ∀ p ∈ params, p.CommaFree ∧ p.SetOff := by
  have htexts : params.map Param.text ≠ [] := by simp [hne]
  have hparts : Bytes.splitAt 0x2C (paramsText params) = (params.map Param.text).flatMap (Bytes.splitAt 0x2C) :=
    Bytes.splitAt_joinWith htexts
  have hfree : (∀ p ∈ params, p.CommaFree) ↔ ∀ text ∈ params.map Param.text, (0x2C : UInt8) ∉ text := by
    rw [List.forall_mem_map]
    exact forall₂_congr fun p _ => by rw [Param.comma_mem_text, not_not]
  have hset : (∀ p ∈ params, p.SetOff) ↔
      (params.map Param.text).mapM argumentOf? = some (params.map Param.argument) := by
    rw [mapM_eq_some_iff, List.map_map, List.map_map, List.map_inj_left]
    exact forall₂_congr fun p _ => p.argumentOf?_text.symm
  rw [forall₂_and, hset]
  constructor
  · intro h
    -- Neither side has a comma in a word, so the words are the same, and as many as the parts between all commas: the
    -- types hold none.
    obtain ⟨arguments, harguments, hjoin⟩ := Option.bind_eq_some_iff.mp h
    have hmap := mapM_eq_some_iff.mp harguments
    have hlength := congrArg List.length hmap
    rw [List.length_map, List.length_map] at hlength
    have hsome : arguments ≠ [] := by
      rw [← List.length_pos_iff, ← hlength]
      exact Bytes.length_splitAt_pos _ _
    have hwords : ∀ argument ∈ arguments, (0x2C : UInt8) ∉ argument := by
      intro argument hargument
      have hmem := List.mem_map_of_mem (f := some) hargument
      rw [← hmap] at hmem
      obtain ⟨part, hpart, hpassed⟩ := List.mem_map.mp hmem
      exact comma_not_mem_of_argumentOf? (Bytes.not_mem_of_mem_splitAt hpart) hpassed
    obtain rfl : arguments = params.map Param.argument :=
      Bytes.joinWith_inj hsome (by simp [hne]) hwords
        (List.forall_mem_map.mpr fun p _ => p.comma_not_mem_argument) (Option.some.inj hjoin)
    rw [hparts] at hlength harguments
    have hcommas := Bytes.not_mem_of_length_flatMap (hlength.trans (by simp))
    rw [Bytes.flatMap_splitAt_of_not_mem hcommas] at harguments
    exact ⟨hfree.mpr hcommas, harguments⟩
  · rintro ⟨hcommas, hnames⟩
    rw [argumentsOf?, hparts, Bytes.flatMap_splitAt_of_not_mem (hfree.mp hcommas), hnames]
    rfl

end PostfixLambda.Wrapper
