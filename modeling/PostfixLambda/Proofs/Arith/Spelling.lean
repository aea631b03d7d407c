import PostfixLambda.Proofs.Arith.Words
import PostfixLambda.Proofs.Text.Integer

/-! Terms as words, and read back from them. Every token is written as words that stand for it, a primitive that holds
    operands as applied to them; and a name is read back as that name unless it is a caret with primes, which is a
    broken rune literal. Tokens that were read from words are written as words that are read as the same tokens. -/

namespace PostfixLambda.Arith

open Text (Solid)

/-! ### Words of a term -/

/-- The words of a token. A primitive that holds operands is spelled out as applied to them. -/
def wordsOf : Token → List Bytes
  | .const v =>
    if v.args.isEmpty then [Shown.text v] else Shown.text v.op :: v.args.flatMap fun arg => [Text.int64 arg, [0x40]]
  | t => [Shown.text t]

theorem wordsOf_ne_nil (t : Token) : wordsOf t ≠ [] := by
  unfold wordsOf
  split
  · split <;> simp
  · simp

theorem append_joinWith (sep : Bytes) {words : List Bytes} (h : words ≠ []) :
    sep ++ Bytes.joinWith sep words = words.flatMap (sep ++ ·) := by
  match words with
  | [word] => simp [Bytes.joinWith]
  | word :: next :: words =>
    have hrest := append_joinWith sep (List.cons_ne_nil next words)
    rw [Bytes.joinWith, List.append_assoc, hrest]
    simp

theorem space_append_formatToken (t : Token) : [0x20] ++ formatToken t = (wordsOf t).flatMap ([0x20] ++ ·) := by
  match t with
  | .const v =>
    simp only [formatToken, wordsOf]
    split
    · simp
    · simp [List.flatMap_assoc]
  | .ident s => simp [formatToken, wordsOf]
  | .lambda => simp [formatToken, wordsOf]
  | .apply => simp [formatToken, wordsOf]
  | .unknown kind => simp [formatToken, wordsOf]

/-- Tokens are written as their words with blanks between them. -/
theorem format_eq_joinWith (tokens : List Token) : format tokens = Bytes.joinWith [0x20] (tokens.flatMap wordsOf) := by
  match tokens with
  | [] => rfl
  | t :: tokens =>
    have hwords : (t :: tokens).flatMap wordsOf ≠ [] := by simp [wordsOf_ne_nil]
    have hspaced : [0x20] ++ format (t :: tokens) = [0x20] ++ Bytes.joinWith [0x20] ((t :: tokens).flatMap wordsOf) := by
      rw [format, append_joinWith _ (by simp), append_joinWith _ hwords, List.flatMap_map, List.flatMap_assoc]
      exact congrArg (List.flatMap · (t :: tokens)) (funext space_append_formatToken)
    exact List.append_cancel_left hspaced

/-! ### The term that the words stand for -/

/-- The term with every primitive that holds operands spelled out as applied to them. -/
def spelledOut : Term → Term
  | .const v =>
    if v.args.isEmpty then .const v else v.args.foldl (fun fn arg => .app fn (.const (.int arg))) (.const (.prim v.op))
  | .var s => .var s
  | .lam b body => .lam b (spelledOut body)
  | .app fn arg => .app (spelledOut fn) (spelledOut arg)
  | .hole => .hole

theorem tokens_applied (fn : Term) (args : List Int64) :
    (args.foldl (fun fn arg => .app fn (.const (.int arg))) fn : Term).tokens =
      fn.tokens ++ args.flatMap fun arg => [.const (.int arg), .apply] := by
  induction args generalizing fn with
  | nil => simp
  | cons arg args ih => simp [ih, PostfixLambda.Term.tokens]

theorem whole_applied {fn : Term} (h : fn.Whole) (args : List Int64) :
    (args.foldl (fun fn arg => .app fn (.const (.int arg))) fn : Term).Whole := by
  induction args generalizing fn with
  | nil => exact h
  | cons arg args ih => exact ih ⟨h, PostfixLambda.Term.whole_const⟩

theorem whole_spelledOut {e : Term} (h : e.Whole) : (spelledOut e).Whole := by
  induction e with
  | const v =>
    rw [spelledOut]
    split
    · exact h
    · exact whole_applied PostfixLambda.Term.whole_const v.args
  | var s => exact h
  | lam b body ih => exact ih h
  | app fn arg ihfn iharg => exact ⟨ihfn h.1, iharg h.2⟩
  | hole => exact h

/-! ### Reading a term back -/

/-- The word is read as that token, or stands for it as one of some names. -/
def Names (name : Bytes → Prop) (word : Bytes) (t : Token) : Prop :=
  Solid word ∧ readWord word = .ok t ∨ t = .ident word ∧ name word

theorem readWord_of_readInt64? {word : Bytes} {n : Int64} (h : Text.readInt64? word = some n) :
    readWord word = .ok (.const (.int n)) := by
  have hne : word.isEmpty = false := by
    cases word with
    | nil =>
      have hempty : Text.readInt64? [] = none := by decide
      rw [hempty] at h
      cases h
    | cons => rfl
  have hfixed : (fixedWords.find? fun entry => entry.1 = word) = none := by
    rw [List.find?_eq_none]
    intro entry hentry hname
    have hnone : ∀ entry ∈ fixedWords, Text.readInt64? entry.1 = none := by decide
    rw [← of_decide_eq_true hname, hnone entry hentry] at h
    cases h
  simp [readWord, hne, hfixed, h]

theorem names_int64 (name : Bytes → Prop) (n : Int64) : Names name (Text.int64 n) (.const (.int n)) :=
  Or.inl ⟨Text.solid_int64 n, readWord_of_readInt64? (Text.readInt64?_int64 n)⟩

theorem names_prim (name : Bytes → Prop) {op : Op} (h : op.IsPrimitive) :
    Names name (Shown.text op) (.const (.prim op)) := by
  refine Or.inl ?_
  rcases h with rfl | rfl | rfl | rfl
  · exact ⟨Text.solid_byte (b := 0x2B) (by decide), rfl⟩
  · exact ⟨Text.solid_byte (b := 0x2D) (by decide), rfl⟩
  · exact ⟨Text.solid_byte (b := 0x2A) (by decide), rfl⟩
  · exact ⟨Text.solid_byte (b := 0x2F) (by decide), rfl⟩

theorem names_lambda (name : Bytes → Prop) : Names name [0x5C] .lambda :=
  Or.inl ⟨Text.solid_byte (by decide), rfl⟩

theorem names_apply (name : Bytes → Prop) : Names name [0x40] .apply :=
  Or.inl ⟨Text.solid_byte (by decide), rfl⟩

theorem names_args (name : Bytes → Prop) (args : List Int64) :
    List.Forall₂ (Names name) (args.flatMap fun arg => [Text.int64 arg, [0x40]])
      (args.flatMap fun arg => [.const (.int arg), .apply]) := by
  induction args with
  | nil => exact .nil
  | cons arg args ih => exact .cons (names_int64 name arg) (.cons (names_apply name) ih)

/-- A constant that holds no operand is written as one word. -/
theorem names_const (name : Bytes → Prop) {v : Value} (h : v.Proper 0) :
    List.Forall₂ (Names name) (wordsOf (.const v)) [.const v] := by
  cases h with
  | int n => exact .cons (names_int64 name n) .nil
  | @prim op args hop hargs =>
    have hnone : args = [] := List.eq_nil_of_length_eq_zero (Nat.le_zero.mp hargs)
    subst hnone
    have htext : Shown.text (⟨op, 0, []⟩ : Value) = Shown.text op := by
      change (if op = .int then Text.int64 0 else if [].isEmpty then Shown.text op else _) = _
      rw [if_neg hop.ne_int]
      rfl
    have hword : wordsOf (.const ⟨op, 0, []⟩) = [Shown.text op] := congrArg (fun word => [word]) htext
    rw [hword]
    exact .cons (names_prim name hop) .nil

/-- The words of a term over some names stand one by one for the tokens of the term spelled out. -/
theorem names_words {most : Nat} {name : Bytes → Prop} {e : Term} (h : e.Over ⟨Value.Proper most, name, name⟩) :
    List.Forall₂ (Names name) (e.tokens.flatMap wordsOf) (spelledOut e).tokens := by
  induction e with
  | const v =>
    cases h with
    | int n => exact .cons (names_int64 name n) .nil
    | @prim op args hop hargs =>
      match args with
      | [] =>
        have hplain : (⟨op, 0, []⟩ : Value).Proper 0 := .prim hop (Nat.le_refl 0)
        exact names_const name hplain
      | arg :: args =>
        have htokens := tokens_applied (.const (.prim op)) (arg :: args)
        rw [PostfixLambda.Term.tokens, List.flatMap_singleton, spelledOut, if_neg (by simp), htokens]
        exact .cons (names_prim name hop) (names_args name (arg :: args))
  | var s => exact .cons (Or.inr ⟨rfl, h⟩) .nil
  | lam b body ih =>
    simp only [PostfixLambda.Term.tokens, spelledOut, List.flatMap_cons, List.flatMap_append, List.flatMap_nil]
    exact .cons (Or.inr ⟨rfl, h.1⟩) (List.rel_append (ih h.2) (.cons (names_lambda name) .nil))
  | app fn arg ihfn iharg =>
    simp only [PostfixLambda.Term.tokens, spelledOut, List.flatMap_cons, List.flatMap_append, List.flatMap_nil]
    exact List.rel_append (ihfn h.1) (List.rel_append (iharg h.2) (.cons (names_apply name) .nil))
  | hole => exact absurd h id

/-- A name: a word that is read as itself. -/
def IsName (word : Bytes) : Prop := Solid word ∧ readWord word = .ok (.ident word)

/-- Words whose tokens are written as words that stand for some tokens are read back as those tokens. -/
theorem readWords_fields_format {tokens spelled : List Token}
    (h : List.Forall₂ (Names IsName) (tokens.flatMap wordsOf) spelled) :
    readWords (Text.fields (format tokens)) = .ok spelled := by
  have hnames : List.Forall₂ (fun word t => Solid word ∧ readWord word = .ok t) (tokens.flatMap wordsOf) spelled := by
    refine h.imp fun word t hword => ?_
    rcases hword with hword | ⟨rfl, hword⟩
    · exact hword
    · exact hword
  obtain ⟨hsolid, hread⟩ := (List.forall₂_and_left _ _).mp hnames
  rw [format_eq_joinWith, Text.fields_joinWith hsolid]
  exact readWords_eq_ok_iff.mpr hread

/-- A term over names and proper constants is read back from its words, spelled out. -/
theorem parse_format {most : Nat} {e : Term} (h : e.Over ⟨Value.Proper most, IsName, IsName⟩) :
    parse (format e.encode) = .ok (spelledOut e) := by
  refine parse_eq_ok_iff.mpr ⟨(spelledOut e).tokens, ?_, PostfixLambda.Term.parse_tokens (whole_spelledOut h.whole)⟩
  rw [PostfixLambda.Term.encode_eq_tokens]
  exact readWords_fields_format (names_words h)

/-! ### Reading words back -/

/-- What a word was read as is written as a word of the same kind, which stands for it again. -/
theorem names_of_readWord (name : Bytes → Prop) {word : Bytes} {t : Token} (hsolid : Solid word)
    (h : readWord word = .ok t) : List.Forall₂ (Names name) (wordsOf t) [t] := by
  rcases readWord_cases h with rfl | rfl | ⟨v, rfl, hv⟩ | rfl
  · exact .cons (names_lambda name) .nil
  · exact .cons (names_apply name) .nil
  · exact names_const name hv
  · exact .cons (Or.inl ⟨hsolid, h⟩) .nil

theorem names_of_readWords (name : Bytes → Prop) {words : List Bytes} {tokens : List Token}
    (hsolid : ∀ word ∈ words, Solid word) (h : readWords words = .ok tokens) :
    List.Forall₂ (Names name) (tokens.flatMap wordsOf) tokens := by
  have hread := readWords_eq_ok_iff.mp h
  clear h
  induction hread with
  | nil => exact .nil
  | cons hword hwords ih =>
    rw [List.forall_mem_cons] at hsolid
    exact List.rel_append (names_of_readWord name hsolid.1 hword) (ih hsolid.2)

/-- The tokens of a program are read again from their own words. -/
theorem readWords_format {program : Bytes} {tokens : List Token} (h : readWords (Text.fields program) = .ok tokens) :
    readWords (Text.fields (format tokens)) = .ok tokens :=
  readWords_fields_format (names_of_readWords IsName (fun _ hword => Text.solid_of_mem_fields hword) h)

/-- The words of its tokens are the canonical spelling of a program. They are read as the same tokens, so they parse to
    the same term or with the same error, and two programs have the same canonical spelling only if their tokens are
    the same. -/
theorem format_canonical (program : Bytes) (tokens : List Token) (h : readWords (Text.fields program) = .ok tokens) :
    readWords (Text.fields (format tokens)) = .ok tokens ∧ parse (format tokens) = parse program ∧
      ∀ program' tokens', readWords (Text.fields program') = .ok tokens' →
        (format tokens' = format tokens ↔ tokens' = tokens) := by
  have hback := readWords_format h
  refine ⟨hback, ?_, fun program' tokens' h' => ⟨fun heq => ?_, fun heq => by rw [heq]⟩⟩
  · rw [parse, parse, hback, h]
  · have hback' := readWords_format h'
    rw [heq, hback] at hback'
    exact (Except.ok.inj hback').symm

/-- Other spellings of the lambda mark, of integers and of rune literals are brought to one; the integer out of range
    is a name. -/
theorem format_canonical_spellings :
    ∃ tokens, readWords (Text.fields "x x' λ +007 @ 'a' @ <ESC> @ -9223372036854775808 @ 9223372036854775808 @") =
        .ok tokens ∧
      format tokens = "x x' \\ 7 @ 97 @ 27 @ -9223372036854775808 @ 9223372036854775808 @" ∧
      readWords (Text.fields (format tokens)) = .ok tokens := by
  have hread : readWords (Text.fields "x x' λ +007 @ 'a' @ <ESC> @ -9223372036854775808 @ 9223372036854775808 @") =
      .ok [.ident "x", .ident "x'", .lambda, .const (.int 7), .apply, .const (.int 97), .apply, .const (.int 27), .apply,
        .const (.int (-9223372036854775808)), .apply, .ident "9223372036854775808", .apply] := by decide +kernel
  exact ⟨_, hread, by decide +kernel, (format_canonical _ _ hread).1⟩

end PostfixLambda.Arith
