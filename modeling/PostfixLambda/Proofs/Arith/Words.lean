import Mathlib.Data.List.Forall2
import PostfixLambda.Arith.Word
import PostfixLambda.Proofs.Term.Vocabulary

/-! What words stand for: marks, constants that hold no operand, and the word itself as an identifier; and what the
    primitives make of constants that hold at most one operand. -/

namespace PostfixLambda.Arith

/-! ### Constants -/

/-- One of the four primitives. -/
def Op.IsPrimitive (op : Op) : Prop := op = .add ∨ op = .sub ∨ op = .mul ∨ op = .div

instance (op : Op) : Decidable op.IsPrimitive :=
  inferInstanceAs (Decidable (op = .add ∨ op = .sub ∨ op = .mul ∨ op = .div))

theorem Op.IsPrimitive.ne_int {op : Op} (h : op.IsPrimitive) : op ≠ .int := by
  rcases h with rfl | rfl | rfl | rfl <;> decide

namespace Value

/-- An integer, or a primitive that holds at most so many operands. -/
inductive Proper (most : Nat) : Value → Prop where
  | int (n : Int64) : Proper most (int n)
  | prim {op : Op} {args : List Int64} (hop : op.IsPrimitive) (hargs : args.length ≤ most) : Proper most ⟨op, 0, args⟩

theorem Proper.mono {m n : Nat} (h : m ≤ n) {v : Value} (hv : v.Proper m) : v.Proper n := by
  cases hv with
  | int k => exact .int k
  | prim hop hargs => exact .prim hop (Nat.le_trans hargs h)

theorem evaluate_cases {op : Op} (h : op.IsPrimitive) (a b : Int64) :
    (∃ n, evaluate op a b = .value (int n)) ∨ evaluate op a b = .fault .divideByZero := by
  rcases h with rfl | rfl | rfl | rfl
  · exact Or.inl ⟨a + b, rfl⟩
  · exact Or.inl ⟨a - b, rfl⟩
  · exact Or.inl ⟨a * b, rfl⟩
  · by_cases hb : b = 0
    · exact Or.inr (by rw [evaluate, if_pos hb])
    · exact Or.inl ⟨a / b, by rw [evaluate, if_neg hb]⟩

/-- A primitive takes its first operand. -/
theorem combine_prim {op : Op} (h : op.IsPrimitive) (a : Int64) : combine (prim op) (int a) = .value ⟨op, 0, [a]⟩ := by
  simp [combine, prim, int, h.ne_int]

/-- Applied to one another, constants that hold at most one operand give such a constant or one of three faults. -/
theorem combine_cases {fn arg : Value} (hfn : fn.Proper 1) (harg : arg.Proper 1) :
    (∃ v, combine fn arg = .value v ∧ v.Proper 1) ∨ combine fn arg = .fault (.notCallable fn) ∨
      combine fn arg = .fault (.notANumber fn.op arg) ∨ combine fn arg = .fault .divideByZero := by
  cases hfn with
  | int n => exact Or.inr (Or.inl rfl)
  | @prim op args hop hargs =>
    cases harg with
    | @prim op' args' hop' hargs' =>
      refine Or.inr (Or.inr (Or.inl ?_))
      simp [combine, hop.ne_int, hop'.ne_int]
    | int n =>
      match args with
      | [] => exact Or.inl ⟨⟨op, 0, [n]⟩, combine_prim hop n, .prim hop (Nat.le_refl 1)⟩
      | [a] =>
        have hcombine : combine ⟨op, 0, [a]⟩ (int n) = evaluate op a n := by
          simp [combine, int, hop.ne_int]
        rw [hcombine]
        rcases evaluate_cases hop a n with ⟨k, hk⟩ | hfault
        · exact Or.inl ⟨int k, hk, .int k⟩
        · exact Or.inr (Or.inr (Or.inr hfault))
      | _ :: _ :: _ => simp at hargs

end Value

/-! ### Words -/

theorem proper_of_mem_fixedWords {word : Bytes} {v : Value} (h : (word, .const v) ∈ fixedWords) : v.Proper 0 := by
  simp only [fixedWords, List.mem_cons, Prod.mk.injEq, reduceCtorEq, and_false, PostfixLambda.Token.const.injEq,
    List.not_mem_nil, or_false, false_or] at h
  rcases h with ⟨-, rfl⟩ | ⟨-, rfl⟩ | ⟨-, rfl⟩ | ⟨-, rfl⟩ <;> exact .prim (by decide) (Nat.le_refl 0)

/-- A word stands for a mark, for a constant without operands, or for itself. -/
theorem readWord_cases {word : Bytes} {t : Token} (h : readWord word = .ok t) :
    t = .lambda ∨ t = .apply ∨ (∃ v, t = .const v ∧ v.Proper 0) ∨ t = .ident word := by
  simp only [readWord] at h
  split at h
  · cases h
  · split at h
    · rename_i name t' hfixed
      cases h
      have hmem := List.mem_of_find?_eq_some hfixed
      match t with
      | .lambda => exact Or.inl rfl
      | .apply => exact Or.inr (Or.inl rfl)
      | .const v => exact Or.inr (Or.inr (Or.inl ⟨v, rfl, proper_of_mem_fixedWords hmem⟩))
      | .ident s => simp [fixedWords] at hmem
      | .unknown kind => simp [fixedWords] at hmem
    · split at h
      · rename_i n _
        cases h
        exact Or.inr (Or.inr (Or.inl ⟨_, rfl, .int n⟩))
      · split at h
        · split at h
          · rename_i code _
            cases h
            exact Or.inr (Or.inr (Or.inl ⟨_, rfl, .int _⟩))
          · cases h
        · cases h
          exact Or.inr (Or.inr (Or.inr rfl))

theorem readWords_cons (word : Bytes) (words : List Bytes) :
    readWords (word :: words) = (do return (← readWord word) :: (← readWords words)) := by
  rw [readWords, List.mapM_cons]
  rfl

/-- Words are read one by one. -/
theorem readWords_eq_ok_iff {words : List Bytes} {tokens : List Token} :
    readWords words = .ok tokens ↔ List.Forall₂ (fun word t => readWord word = .ok t) words tokens := by
  induction words generalizing tokens with
  | nil =>
    rw [List.forall₂_nil_left_iff]
    exact ⟨fun h => (Except.ok.inj h).symm, fun h => by rw [h]; rfl⟩
  | cons word words ih =>
    rw [readWords_cons, List.forall₂_cons_left_iff]
    cases hword : readWord word with
    | error e =>
      constructor
      · intro h
        cases h
      · rintro ⟨t, rest, ht, -⟩
        cases ht
    | ok t =>
      constructor
      · intro h
        cases hrest : readWords words with
        | error e =>
          rw [hrest] at h
          cases h
        | ok rest =>
          rw [hrest] at h
          cases h
          exact ⟨t, rest, rfl, ih.mp hrest, rfl⟩
      · rintro ⟨t', rest, ht, hrest, rfl⟩
        cases ht
        rw [ih.mpr hrest]
        rfl

/-- A token read has a word that it was read from. -/
theorem exists_word_of_readWords {words : List Bytes} {tokens : List Token} (h : readWords words = .ok tokens)
    {t : Token} (ht : t ∈ tokens) : ∃ word ∈ words, readWord word = .ok t := by
  obtain ⟨hlength, hget⟩ := List.forall₂_iff_get.mp (readWords_eq_ok_iff.mp h)
  obtain ⟨i, hi, rfl⟩ := List.getElem_of_mem ht
  have hi' : i < words.length := hlength ▸ hi
  exact ⟨words[i], List.getElem_mem hi', hget i hi' hi⟩

theorem parse_eq_ok_iff {program : Bytes} {e : Term} :
    parse program = .ok e ↔
      ∃ tokens, readWords (Text.fields program) = .ok tokens ∧ PostfixLambda.Term.parse tokens = .ok e := by
  simp only [parse]
  cases readWords (Text.fields program) with
  | error err => simp
  | ok tokens =>
    cases hparse : PostfixLambda.Term.parse tokens with
    | error err => simp [hparse]
    | ok e' => simp [hparse]

/-- A program's term is over a vocabulary that allows what its words stand for. -/
theorem over_of_parse {voc : Vocabulary Value Bytes} {program : Bytes} {e : Term} (h : parse program = .ok e)
    (hwords : ∀ word ∈ Text.fields program, ∀ t, readWord word = .ok t → voc.Allows t) : e.Over voc := by
  obtain ⟨tokens, hread, hparse⟩ := parse_eq_ok_iff.mp h
  refine .of_parse hparse fun t ht => ?_
  obtain ⟨word, hword, hok⟩ := exists_word_of_readWords hread ht
  exact hwords word hword t hok

end PostfixLambda.Arith
