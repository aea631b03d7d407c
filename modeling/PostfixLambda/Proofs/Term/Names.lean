import PostfixLambda.Term.Names

/-! The names of a term, by recursion on the term: where a name occurs free, and where it occurs at all. The walks that
    collect names find just these; the free occurrences are found in their order from left to right. -/

namespace PostfixLambda.Term

variable {V S : Type}

/-! ### Free names -/

/-- The name has an occurrence outside the scope of every binder of that name. -/
def Free (s : S) : Term V S → Prop
  | var t => t = s
  | lam b body => b ≠ s ∧ body.Free s
  | app fn arg => fn.Free s ∨ arg.Free s
  | const _ | hole => False

variable [DecidableEq S]

/-- The free occurrences of names in a term below the binders `bound`, from left to right. -/
def freeOccurrences (bound : List S) : Term V S → List S
  | var s => if s ∈ bound then [] else [s]
  | lam b body => body.freeOccurrences (b :: bound)
  | app fn arg => fn.freeOccurrences bound ++ arg.freeOccurrences bound
  | const _ | hole => []

/-- The free occurrences among the parts still to visit. -/
def visitsOccurrences : List (Visit V S) → (bound : List S) → List S
  | [], _ => []
  | .leave b :: rest, bound => visitsOccurrences rest (bound.erase b)
  | .enter e :: rest, bound => e.freeOccurrences bound ++ visitsOccurrences rest bound

theorem freeOccurrencesFrom_eq (visits : List (Visit V S)) (bound found : List S) :
    freeOccurrencesFrom visits bound found = found.reverse ++ visitsOccurrences visits bound := by
  fun_induction freeOccurrencesFrom visits bound found with
  | case1 bound found => simp [visitsOccurrences]
  | case2 b rest bound found ih => simpa [visitsOccurrences] using ih
  | case3 s rest bound found ih =>
    by_cases hs : s ∈ bound
    · simpa [visitsOccurrences, freeOccurrences, hs] using ih
    · simpa [visitsOccurrences, freeOccurrences, hs] using ih
  | case4 b body rest bound found ih => simpa [visitsOccurrences, freeOccurrences] using ih
  | case5 fn arg rest bound found ih => simpa [visitsOccurrences, freeOccurrences] using ih
  | case6 v rest bound found ih => simpa [visitsOccurrences, freeOccurrences] using ih
  | case7 rest bound found ih => simpa [visitsOccurrences, freeOccurrences] using ih

theorem freeVars_eq (e : Term V S) : e.freeVars = (e.freeOccurrences []).eraseDups := by
  simp [freeVars, freeOccurrencesFrom_eq, visitsOccurrences]

theorem mem_freeOccurrences {e : Term V S} {bound : List S} {s : S} :
    s ∈ e.freeOccurrences bound ↔ e.Free s ∧ s ∉ bound := by
  induction e generalizing bound with
  | var t =>
    by_cases ht : t ∈ bound
    · simp only [freeOccurrences, ht, if_true, List.not_mem_nil, Free, false_iff]
      rintro ⟨rfl, hs⟩
      exact hs ht
    · simp only [freeOccurrences, ht, if_false, List.mem_singleton, Free]
      constructor
      · rintro rfl
        exact ⟨rfl, ht⟩
      · exact fun h => h.1.symm
  | const v => simp [freeOccurrences, Free]
  | hole => simp [freeOccurrences, Free]
  | app fn arg ihfn iharg => simp only [freeOccurrences, List.mem_append, ihfn, iharg, Free, or_and_right]
  | lam b body ih =>
    simp only [freeOccurrences, ih, Free, List.mem_cons, not_or]
    constructor
    · rintro ⟨hs, hb, hbound⟩
      exact ⟨⟨Ne.symm hb, hs⟩, hbound⟩
    · rintro ⟨⟨hb, hs⟩, hbound⟩
      exact ⟨hs, Ne.symm hb, hbound⟩

@[simp] theorem mem_freeVars {e : Term V S} {s : S} : s ∈ e.freeVars ↔ e.Free s := by
  rw [freeVars_eq, List.mem_eraseDups, mem_freeOccurrences]
  simp

instance (e : Term V S) (s : S) : Decidable (e.Free s) := decidable_of_iff (s ∈ e.freeVars) mem_freeVars

omit [DecidableEq S]

/-! ### All names -/

/-- The name occurs in the term, as a variable or as a binder. -/
def Mentions (s : S) : Term V S → Prop
  | var t => t = s
  | lam b body => b = s ∨ body.Mentions s
  | app fn arg => fn.Mentions s ∨ arg.Mentions s
  | const _ | hole => False

theorem mem_symbolsOnto {terms : List (Term V S)} {found : List S} {s : S} :
    s ∈ symbolsOnto terms found ↔ s ∈ found ∨ ∃ e ∈ terms, e.Mentions s := by
  fun_induction symbolsOnto terms found with
  | case1 found => simp
  | case2 t rest found ih =>
    simp only [ih, List.mem_cons, exists_eq_or_imp, Mentions, eq_comm (a := s), or_assoc, or_left_comm]
  | case3 b body rest found ih =>
    simp only [ih, List.mem_cons, exists_eq_or_imp, Mentions, eq_comm (a := s), or_assoc, or_left_comm]
  | case4 fn arg rest found ih => simp only [ih, List.mem_cons, exists_eq_or_imp, Mentions, or_assoc]
  | case5 v rest found ih => simp only [ih, List.mem_cons, exists_eq_or_imp, Mentions, false_or]
  | case6 rest found ih => simp only [ih, List.mem_cons, exists_eq_or_imp, Mentions, false_or]

@[simp] theorem mem_symbols {e : Term V S} {s : S} : s ∈ e.symbols ↔ e.Mentions s := by
  simp [symbols, mem_symbolsOnto]

theorem Free.mentions {e : Term V S} {s : S} (h : e.Free s) : e.Mentions s := by
  induction e with
  | var t => exact h
  | const v => exact h
  | hole => exact h
  | app fn arg ihfn iharg => exact h.imp ihfn iharg
  | lam b body ih => exact Or.inr (ih h.2)

end PostfixLambda.Term
