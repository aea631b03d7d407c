import PostfixLambda.Reduction.Reducer

/-! The search for a redex as a recursion on the term: the term itself, then the function of an application before its
    argument, or the body of an abstraction. The search over a list of parts and their surroundings finds the same
    redex, and puts what it is contracted to back in the same place. -/

namespace PostfixLambda

namespace Step

variable {V S F : Type}

/-- A contraction, with the whole term taken one level further out. -/
def within {ε : Type} (frame : Frame V S) (attempt : Attempt S ε (Contraction V S)) : Attempt S ε (Contraction V S) :=
  ⟨attempt.asked, attempt.result.map fun c => { c with whole := frame.fill c.whole }⟩

/-- A contraction, with the whole term taken out to the root. -/
def outermost {ε : Type} (path : List (Frame V S)) (attempt : Attempt S ε (Contraction V S)) :
    Attempt S ε (Option (Contraction V S)) :=
  ⟨attempt.asked, attempt.result.map fun c => some { c with whole := plug path c.whole }⟩

theorem outermost_within {ε : Type} (frame : Frame V S) (path : List (Frame V S))
    (attempt : Attempt S ε (Contraction V S)) :
    outermost path (within frame attempt) = outermost (frame :: path) attempt := by
  obtain ⟨asked, result⟩ := attempt
  cases result <;> rfl

variable [DecidableEq S]

/-- The contraction of a term that is itself a redex. -/
def here [Domain V F] (strategy : Strategy S) (e : Term V S) (rule : Rule) :
    Attempt S (Stop (ReduceError V S F)) (Contraction V S) :=
  ⟨(contract strategy e rule).asked, (contract strategy e rule).result.map fun reduct => ⟨rule, e, reduct, reduct⟩⟩

/-- The contraction of the first redex in normal order, by recursion on the term. There is none without a redex. -/
def first [Domain V F] (strategy : Strategy S) :
    Term V S → Option (Attempt S (Stop (ReduceError V S F)) (Contraction V S))
  | .app fn arg =>
    match rule? strategy.delta (.app fn arg) with
    | some rule => some (here strategy (.app fn arg) rule)
    | none =>
      match first strategy fn with
      | some attempt => some (within (.fn arg) attempt)
      | none => (first strategy arg).map (within (.arg fn))
  | .lam b body => (first strategy body).map (within (.body b))
  | .const _ | .var _ => none
  | .hole => some ⟨[], .error (.error (.term .invalidTerm))⟩

variable [Domain V F] (strategy : Strategy S)

theorem first_app_eq_none_iff {fn arg : Term V S} :
    first (F := F) strategy (.app fn arg) = none ↔
      rule? strategy.delta (.app fn arg) = none ∧ first (F := F) strategy fn = none ∧
        first (F := F) strategy arg = none := by
  simp only [first]
  cases rule? strategy.delta (.app fn arg) with
  | some rule => simp
  | none => cases first (F := F) strategy fn <;> simp

theorem search_of_rule {e : Term V S} {rule : Rule} (h : rule? strategy.delta e = some rule) (path : List (Frame V S))
    (rest : List (Term V S × List (Frame V S))) :
    search strategy ((e, path) :: rest) = outermost path (here strategy e rule) := by
  rw [search.eq_def]
  simp only [h, outermost, here]
  cases (contract strategy e rule).result <;> rfl

/-- The first part is searched before all others. -/
theorem search_cons (e : Term V S) (path : List (Frame V S)) (rest : List (Term V S × List (Frame V S))) :
    search strategy ((e, path) :: rest) =
      match first strategy e with
      | some attempt => outermost path attempt
      | none => search strategy rest := by
  induction e generalizing path rest with
  | const v =>
    rw [search]
    rfl
  | var s =>
    rw [search]
    rfl
  | hole =>
    rw [search]
    rfl
  | lam b body ih =>
    rw [search]
    simp only [rule?, ih, first]
    cases first strategy body with
    | none => rfl
    | some attempt => exact (outermost_within (.body b) path attempt).symm
  | app fn arg ihfn iharg =>
    cases hrule : rule? strategy.delta (.app fn arg) with
    | some rule => simp only [first, hrule, search_of_rule strategy hrule]
    | none =>
      rw [search, hrule]
      simp only [first, hrule, ihfn, iharg]
      cases first strategy fn with
      | some attempt => exact (outermost_within (.fn arg) path attempt).symm
      | none =>
        cases first strategy arg with
        | some attempt => exact (outermost_within (.arg fn) path attempt).symm
        | none => rfl

end Step

variable {V S F : Type} [DecidableEq S] [Domain V F]

/-- A step is the contraction of the first redex, if there is one. -/
theorem Term.step_eq (strategy : Strategy S) (e : Term V S) :
    e.step strategy =
      match Step.first strategy e with
      | some attempt => ⟨attempt.asked, attempt.result.map some⟩
      | none => ⟨[], .ok none⟩ := by
  rw [Term.step, Step.search_cons]
  cases Step.first strategy e with
  | some attempt => rfl
  | none =>
    simp only
    rw [Step.search]

theorem Term.step_eq_none_iff {strategy : Strategy S} {e : Term V S} :
    (e.step (F := F) strategy).result = .ok none ↔ Step.first (F := F) strategy e = none := by
  rw [step_eq]
  rcases Step.first (F := F) strategy e with _ | ⟨asked, stop | c⟩
  · simp
  · simp [Except.map]
  · simp [Except.map]

theorem Term.step_eq_some_iff {strategy : Strategy S} {e : Term V S} {c : Contraction V S} :
    (e.step (F := F) strategy).result = .ok (some c) ↔
      ∃ attempt, Step.first (F := F) strategy e = some attempt ∧ attempt.result = .ok c := by
  rw [step_eq]
  rcases Step.first (F := F) strategy e with _ | ⟨asked, stop | c'⟩
  · simp
  · simp [Except.map]
  · simp [Except.map]

theorem Term.step_eq_error_iff {strategy : Strategy S} {e : Term V S} {stop : Stop (ReduceError V S F)} :
    (e.step strategy).result = .error stop ↔
      ∃ attempt, Step.first strategy e = some attempt ∧ attempt.result = .error stop := by
  rw [step_eq]
  rcases Step.first (F := F) strategy e with _ | ⟨asked, stop' | c⟩
  · simp
  · simp [Except.map]
  · simp [Except.map]

end PostfixLambda
