import PostfixLambda.Substitution.Renamer

/-! The contract of renamers, and that searching honours it: where every derived name is further on by some measure than
    the one it is derived from, no name is tried twice, and one of the names tried is not taken. -/

namespace PostfixLambda.Renamer

variable {S : Type}

/-- The renamer's contract: it chooses a name, and one that is not taken. -/
def Honours (rename : Renamer S) : Prop := ∀ b taken, ∃ s, (rename b taken).chosen = .ok s ∧ s ∉ taken

/-- A taken name that is passed leaves fewer taken names ahead. -/
theorem countP_ahead_lt {m : S → Nat} {s t : S} {taken : List S} (hs : s ∈ taken) (hst : m s < m t) :
    taken.countP (fun u => decide (m t ≤ m u)) < taken.countP (fun u => decide (m s ≤ m u)) := by
  induction taken with
  | nil => cases hs
  | cons u rest ih =>
    have hle : rest.countP (fun u => decide (m t ≤ m u)) ≤ rest.countP (fun u => decide (m s ≤ m u)) := by
      refine List.countP_mono_left fun u _ hu => ?_
      simp only [decide_eq_true_eq] at hu ⊢
      omega
    rcases List.mem_cons.mp hs with rfl | hs
    · have hnot : ¬m t ≤ m s := by omega
      simp only [List.countP_cons, decide_eq_true_eq, hnot, if_false, Nat.le_refl, if_true]
      omega
    · have hlt := ih hs
      simp only [List.countP_cons, decide_eq_true_eq]
      by_cases htu : m t ≤ m u
      · have hsu : m s ≤ m u := by omega
        simp only [htu, hsu, if_true]
        omega
      · simp only [htu, if_false]
        omega

variable [DecidableEq S]

/-- The search ends at a name that is not taken, if it may try more names than there are taken ones ahead. -/
theorem untilFree_not_taken {next : S → S} {m : S → Nat} (hnext : ∀ s, m s < m (next s)) {taken : List S} {fuel : Nat}
    {s : S} (h : taken.countP (fun u => decide (m s ≤ m u)) < fuel) : (untilFree next taken fuel s).2 ∉ taken := by
  induction fuel generalizing s with
  | zero => exact absurd h (Nat.not_lt_zero _)
  | succ fuel ih =>
    simp only [untilFree]
    split
    · rename_i hs
      -- The taken name `s` is passed for good.
      refine ih ?_
      have hlt := countP_ahead_lt hs (hnext s)
      omega
    · assumption

/-- What holds of the name that the search starts from, and of a name derived from one it holds of, holds of the name
    that the search ends at. -/
theorem untilFree_induct {next : S → S} {P : S → Prop} (hnext : ∀ s, P s → P (next s)) (taken : List S) (fuel : Nat) {s : S}
    (h : P s) : P (untilFree next taken fuel s).2 := by
  induction fuel generalizing s with
  | zero => exact h
  | succ fuel ih =>
    simp only [untilFree]
    split
    · exact ih (hnext s h)
    · exact h

theorem search_induct {next : S → S} {P : S → Prop} (hnext : ∀ s, P s → P (next s)) {b s : S} {taken : List S}
    (hb : P (next b)) (h : (search next b taken).chosen = .ok s) : P s := by
  cases h
  exact untilFree_induct hnext taken (taken.length + 1) hb

theorem search_honours {next : S → S} {m : S → Nat} (hnext : ∀ s, m s < m (next s)) : (search next).Honours := by
  intro b taken
  refine ⟨(untilFree next taken (taken.length + 1) (next b)).2, rfl, untilFree_not_taken hnext ?_⟩
  exact Nat.lt_succ_of_le List.countP_le_length

theorem primes_honours : primes.Honours := by
  refine search_honours (m := List.length) fun s => ?_
  simp [prime]

end PostfixLambda.Renamer
