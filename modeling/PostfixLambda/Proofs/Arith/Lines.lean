import PostfixLambda.Proofs.Arith.Spelling
import PostfixLambda.Proofs.Text.Terminal

/-! The texts of terms, in lambda notation and as words, have no control characters if the names in them have none. -/

namespace PostfixLambda.Arith

open Text (Tidy)

/-- Terms whose names have no control characters. -/
def tidyTerms : Vocabulary Value Bytes := ⟨fun _ => True, Tidy, Tidy⟩

/-! ### Constants -/

theorem tidy_natural (n : Nat) : Tidy (Text.natural n) := by
  refine Text.tidy_ascii fun b hb => ?_
  have hdigit := Text.isDigit_of_mem_natural hb
  simp only [Bytes.isDigit, Bool.and_eq_true, decide_eq_true_eq] at hdigit
  grind

/-- One visible byte of ASCII, or a blank. -/
theorem tidy_byte {b : UInt8} (h : 0x20 ≤ b ∧ b < 0x7F) : Tidy [b] :=
  Text.tidy_ascii (List.forall_mem_singleton.mpr h)

theorem tidy_int64 (n : Int64) : Tidy (Text.int64 n) := by
  simp only [Text.int64, Text.integer]
  split
  · exact (tidy_byte (by decide)).append (tidy_natural _)
  · exact tidy_natural _

theorem tidy_op (op : Op) : Tidy (Shown.text op) := by
  cases op with
  | int => exact Text.tidy_ofString (by decide)
  | add => exact Text.tidy_ofString (by decide)
  | sub => exact Text.tidy_ofString (by decide)
  | mul => exact Text.tidy_ofString (by decide)
  | div => exact Text.tidy_ofString (by decide)
  | other number =>
    have hopen : Tidy (Bytes.ofString "Op(") := Text.tidy_ofString (by decide)
    have hclose : Tidy (Bytes.ofString ")") := Text.tidy_ofString (by decide)
    exact (hopen.append (tidy_natural _)).append hclose

theorem tidy_value (v : Value) : Tidy (Shown.text v) := by
  change Tidy (if v.op = .int then Text.int64 v.n else if v.args.isEmpty then Shown.text v.op else _)
  split
  · exact tidy_int64 v.n
  · split
    · exact tidy_op v.op
    · have hargs : Tidy (v.args.flatMap fun arg => 0x20 :: Text.int64 arg) :=
        Text.tidy_flatMap fun arg _ => (tidy_byte (by decide)).append (tidy_int64 arg)
      have hopen : Tidy [0x28] := tidy_byte (by decide)
      have hclose : Tidy [0x29] := tidy_byte (by decide)
      exact ((hopen.append (tidy_op v.op)).append hargs).append hclose

/-! ### Terms -/

theorem tidy_textOnto {e : Term} (h : e.Over tidyTerms) {rest : Bytes} (hrest : Tidy rest) : Tidy (e.textOnto rest) := by
  induction e generalizing rest with
  | lam b body ih =>
    have hlambda : Tidy (Bytes.ofString "(λ") := Text.tidy_ofString (by decide)
    have hdot : Tidy (Bytes.ofString ". ") := Text.tidy_ofString (by decide)
    exact hlambda.append (h.1.append (hdot.append (ih h.2 ((tidy_byte (by decide)).append hrest))))
  | const v => exact (tidy_value v).append hrest
  | var s => exact h.append hrest
  | app fn arg ihfn iharg =>
    have harg := iharg h.2 ((tidy_byte (b := 0x29) (by decide)).append hrest)
    have hfn := ihfn h.1 ((tidy_byte (b := 0x20) (by decide)).append harg)
    exact (tidy_byte (b := 0x28) (by decide)).append hfn
  | hole => exact absurd h id

theorem tidy_joinWith {words : List Bytes} (h : ∀ word ∈ words, Tidy word) : Tidy (Bytes.joinWith [0x20] words) := by
  match words with
  | [] => exact Text.tidy_nil
  | [word] => exact h word (List.mem_singleton.mpr rfl)
  | word :: next :: words =>
    rw [List.forall_mem_cons] at h
    exact (h.1.append (tidy_byte (by decide))).append (tidy_joinWith h.2)

theorem tidy_wordsOf {t : Token} (h : tidyTerms.Allows t) : ∀ word ∈ wordsOf t, Tidy word := by
  cases t with
  | const v =>
    simp only [wordsOf]
    split
    · exact List.forall_mem_singleton.mpr (tidy_value v)
    · -- The primitive, and then every operand with the mark that applies it.
      refine List.forall_mem_cons.mpr ⟨tidy_op v.op, fun word hword => ?_⟩
      obtain ⟨arg, -, harg⟩ := List.mem_flatMap.mp hword
      rcases List.mem_pair.mp harg with rfl | rfl
      · exact tidy_int64 arg
      · exact tidy_byte (by decide)
  | ident s => exact List.forall_mem_singleton.mpr h.2
  | lambda => exact List.forall_mem_singleton.mpr (tidy_byte (by decide))
  | apply => exact List.forall_mem_singleton.mpr (tidy_byte (by decide))
  | unknown kind =>
    have hinvalid : Tidy (Bytes.ofString "<invalid ") := Text.tidy_ofString (by decide)
    have hkind : Tidy (Bytes.ofString "TokenKind(") := Text.tidy_ofString (by decide)
    have hparen : Tidy (Bytes.ofString ")") := Text.tidy_ofString (by decide)
    have hclose : Tidy (Bytes.ofString ">") := Text.tidy_ofString (by decide)
    refine List.forall_mem_singleton.mpr ?_
    exact (hinvalid.append ((hkind.append (tidy_natural _)).append hparen)).append hclose

/-- The words of a term have no control characters, nor have the blanks between them. -/
theorem tidy_format {e : Term} (h : e.Over tidyTerms) : Tidy (format e.encode) := by
  rw [format_eq_joinWith, PostfixLambda.Term.encode_eq_tokens]
  refine tidy_joinWith fun word hword => ?_
  obtain ⟨t, ht, hmem⟩ := List.mem_flatMap.mp hword
  exact tidy_wordsOf (h.allows t ht) word hmem

end PostfixLambda.Arith
