import PostfixLambda.Proofs.Text.Fields
import PostfixLambda.Text.Integer

/-! The decimal text of an integer reads back as the integer, and is one word. -/

namespace PostfixLambda.Text

theorem isDigit_digit : ∀ d < 10, Bytes.isDigit (0x30 + d.toUInt8) = true := by decide

theorem value_digit : ∀ d < 10, (0x30 + d.toUInt8).toNat - 0x30 = d := by decide

theorem natural_ne_nil (n : Nat) : natural n ≠ [] := by
  rw [natural]
  split <;> simp

theorem isDigit_of_mem_natural {n : Nat} {b : UInt8} (h : b ∈ natural n) : Bytes.isDigit b = true := by
  fun_induction natural n with
  | case1 n hn =>
    rw [List.mem_singleton.mp h]
    exact isDigit_digit n hn
  | case2 n hn ih =>
    rcases List.mem_append.mp h with h | h
    · exact ih h
    · rw [List.mem_singleton.mp h]
      exact isDigit_digit _ (Nat.mod_lt n (by decide))

theorem value_natural (n : Nat) : (natural n).foldl (fun n b => n * 10 + (b.toNat - 0x30)) 0 = n := by
  fun_induction natural n with
  | case1 n hn => simpa using value_digit n hn
  | case2 n hn ih =>
    rw [List.foldl_append, ih, List.foldl_cons, List.foldl_nil, value_digit _ (Nat.mod_lt n (by decide))]
    omega

theorem readNatural?_natural (n : Nat) : readNatural? (natural n) = some n := by
  have hdigits : (natural n).all Bytes.isDigit = true := List.all_eq_true.mpr fun b hb => isDigit_of_mem_natural hb
  simp [readNatural?, natural_ne_nil, hdigits, value_natural]

theorem readSign_of_digits {text : Bytes} (h : ∀ b ∈ text, Bytes.isDigit b = true) : readSign text = (false, text) := by
  unfold readSign
  split
  · exact absurd (h 0x2B List.mem_cons_self) (by decide)
  · exact absurd (h 0x2D List.mem_cons_self) (by decide)
  · rfl

/-- A 64-bit integer is read back from its decimal text. -/
theorem readInt64?_int64 (n : Int64) : readInt64? (int64 n) = some n := by
  have hlow := n.le_toInt
  have hhigh := n.toInt_lt
  by_cases hneg : n.toInt < 0
  · have habs : -(n.toInt.natAbs : Int) = n.toInt := by omega
    have hfits : n.toInt.natAbs ≤ 0x8000000000000000 := by omega
    have hvalue : signed64? true n.toInt.natAbs = some n := by
      rw [signed64?, if_pos rfl, if_pos hfits, habs, Int64.ofInt_toInt]
    simp [readInt64?, int64, integer, hneg, readSign, readNatural?_natural, hvalue]
  · have habs : (n.toInt.natAbs : Int) = n.toInt := by omega
    have hfits : n.toInt.natAbs < 0x8000000000000000 := by omega
    have hvalue : signed64? false n.toInt.natAbs = some n := by
      rw [signed64?, if_neg Bool.false_ne_true, if_pos hfits, habs, Int64.ofInt_toInt]
    have hsign := readSign_of_digits fun b (hb : b ∈ natural n.toInt.natAbs) => isDigit_of_mem_natural hb
    simp [readInt64?, int64, integer, hneg, hsign, readNatural?_natural, hvalue]

theorem solid_int64 (n : Int64) : Solid (int64 n) := by
  have hdigit : ∀ b, Bytes.isDigit b = true → 0x20 < b ∧ b < 0x80 := by
    intro b hb
    simp only [Bytes.isDigit, Bool.and_eq_true, decide_eq_true_eq] at hb
    grind
  have hnatural : ∀ b ∈ natural n.toInt.natAbs, 0x20 < b ∧ b < 0x80 := fun b hb => hdigit b (isDigit_of_mem_natural hb)
  simp only [int64, integer]
  split
  · exact solid_of_ascii (by simp) (List.forall_mem_cons.mpr ⟨by decide, hnatural⟩)
  · exact solid_of_ascii (natural_ne_nil _) hnatural

end PostfixLambda.Text
