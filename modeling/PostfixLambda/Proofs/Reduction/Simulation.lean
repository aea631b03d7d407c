import PostfixLambda.Proofs.Nameless.Reduction
import PostfixLambda.Proofs.Reduction.Search
import PostfixLambda.Proofs.Substitution.CaptureAvoiding

/-! A step on a term is the step of normal order on its nameless form, with the same failure if it fails: where names
    stand for variables a term and its nameless form have the same redexes, and both rules contract alike. The names
    that a renamer chooses are not seen there. -/

namespace PostfixLambda

variable {V S F : Type} [DecidableEq S]

/-- Binders are renamed, by a renamer that honours its contract. -/
def Strategy.Honours (strategy : Strategy S) : Prop := ∃ rename, strategy.rename? = some rename ∧ rename.Honours

namespace Step

/-! ### Redexes -/

/-- Every name stands for a variable. -/
def Refs (ρ : S → Nameless V S) : Prop := ∀ s, ∃ r, ρ s = .ref r

theorem Refs.bindName {ρ : S → Nameless V S} (h : Refs ρ) (b : S) : Refs (Term.bindName b ρ) := by
  intro s
  by_cases hs : s = b
  · exact ⟨.bound 0, by simp [Term.bindName, hs]⟩
  · obtain ⟨r, hr⟩ := h s
    exact ⟨r.deeper, by simp [Term.bindName, hs, hr, Nameless.shift, Nameless.rename]⟩

/-- Where names stand for variables, the redexes are those of the nameless form. -/
theorem isRedex_denote {ρ : S → Nameless V S} (h : Refs ρ) (delta : Bool) (e : Term V S) :
    (e.denote ρ).isRedex delta = (rule? delta e).isSome := by
  have hvar : ∀ s, ∃ r, (Term.var s : Term V S).denote ρ = .ref r := h
  cases e with
  | var s =>
    obtain ⟨r, hr⟩ := hvar s
    rw [hr]
    rfl
  | const v => rfl
  | hole => rfl
  | lam b body => rfl
  | app fn arg =>
    simp only [Term.denote]
    cases fn with
    | var s =>
      obtain ⟨r, hr⟩ := hvar s
      rw [hr]
      rfl
    | lam b body => rfl
    | app f a => rfl
    | hole => rfl
    | const v =>
      cases arg with
      | var s =>
        obtain ⟨r, hr⟩ := hvar s
        rw [hr]
        rfl
      | const w => cases delta <;> rfl
      | lam b body => rfl
      | app f a => rfl
      | hole => rfl

/-! ### Contractions -/

/-- The beta rule takes the binder away from the nameless body. -/
theorem betaReduce_of_honours {rename : Renamer S} (hrename : rename.Honours) {b : S} {body arg : Term V S}
    (hbody : body.Whole) (harg : arg.Whole) :
    ∃ e', ((Term.app (.lam b body) arg).betaReduce (some rename) :
        Attempt S (Stop (ReduceError V S F)) (Term V S)).result = .ok e' ∧ e'.Whole ∧
      ∀ ρ, e'.denote ρ = (body.denote (Term.bindName b ρ)).instantiate (arg.denote ρ) := by
  obtain ⟨e', hok, hwhole, hmeans⟩ := Term.bind_of_honours hbody (Term.whole_of_find?_single (v := b) harg) hrename
  refine ⟨e', ?_, hwhole, fun ρ => ?_⟩
  · simp only [Term.betaReduce, Term.substitute, hok]
    rfl
  · rw [hmeans, Term.instantiate_denote]
    congr 1
    funext s
    by_cases hs : s = b
    · simp [Term.meaning, Env.find?, hs]
    · simp [Term.meaning, Env.find?, hs, Ne.symm hs]

/-- The whole terms of a contraction, in nameless form. -/
def view (ρ : S → Nameless V S) (attempt : Attempt S (Stop (ReduceError V S F)) (Contraction V S)) :
    Except (Stop (ReduceError V S F)) (Nameless V S) :=
  attempt.result.map fun c => c.whole.denote ρ

/-- A contraction that succeeds gives a whole term. -/
def GivesWhole (attempt : Attempt S (Stop (ReduceError V S F)) (Contraction V S)) : Prop :=
  ∀ c, attempt.result = .ok c → c.whole.Whole

theorem view_within (frame : Frame V S) (ρ ρ' : S → Nameless V S) (f : Nameless V S → Nameless V S)
    (h : ∀ e, (frame.fill e).denote ρ = f (e.denote ρ'))
    (attempt : Attempt S (Stop (ReduceError V S F)) (Contraction V S)) :
    view ρ (within frame attempt) = (view ρ' attempt).map f := by
  obtain ⟨asked, result⟩ := attempt
  cases result with
  | error stop => rfl
  | ok c =>
    simp only [view, within, Except.map]
    rw [h]

omit [DecidableEq S] in
theorem GivesWhole.within {attempt : Attempt S (Stop (ReduceError V S F)) (Contraction V S)}
    (ha : GivesWhole attempt) (frame : Frame V S) (h : ∀ e, e.Whole → (frame.fill e).Whole) :
    GivesWhole (within frame attempt) := by
  obtain ⟨asked, result⟩ := attempt
  intro c hc
  cases result with
  | error stop => cases hc
  | ok c' =>
    cases hc
    exact h _ (ha c' rfl)

variable [Domain V F]

/-- A redex is contracted as its nameless form is. -/
theorem here_denote {strategy : Strategy S} (hs : strategy.Honours) {e : Term V S} (he : e.Whole) {rule : Rule}
    (hrule : rule? strategy.delta e = some rule) (ρ : S → Nameless V S) :
    view ρ (here strategy e rule) = (e.denote ρ).contract ∧ GivesWhole (here strategy e rule) := by
  obtain ⟨rename, hrename?, hrename⟩ := hs
  unfold rule? at hrule
  split at hrule
  · rename_i b body arg
    cases hrule
    obtain ⟨e', hok, hwhole, hmeans⟩ := betaReduce_of_honours (F := F) hrename (b := b) (Term.whole_lam.mp he.1) he.2
    simp only [view, GivesWhole, here, contract, hrename?, hok]
    refine ⟨congrArg Except.ok (hmeans ρ), fun c hc => ?_⟩
    cases hc
    exact hwhole
  · rename_i fn arg
    split at hrule
    · cases hrule
      simp only [view, GivesWhole, here, contract, Term.deltaReduce, Term.denote, Nameless.contract]
      cases Domain.combine fn arg with
      | value v =>
        refine ⟨rfl, fun c hc => ?_⟩
        cases hc
        exact Term.whole_const
      | fault fault => exact ⟨rfl, fun c hc => by cases hc⟩
      | panic message => exact ⟨rfl, fun c hc => by cases hc⟩
    · cases hrule
  · cases hrule

/-- The contraction of the first redex is the step of normal order on the nameless form. -/
theorem first_denote {strategy : Strategy S} (hs : strategy.Honours) {e : Term V S} (he : e.Whole)
    {ρ : S → Nameless V S} (hρ : Refs ρ) :
    (first strategy e).map (view ρ) = (e.denote ρ).leftmost? strategy.delta := by
  induction e generalizing ρ with
  | const v => rfl
  | var s =>
    obtain ⟨r, hr⟩ := hρ s
    simp only [Term.denote, hr]
    rfl
  | hole => exact absurd he Term.not_whole_hole
  | lam b body ih =>
    simp only [first, Term.denote, Nameless.leftmost?_lam, ← ih he (hρ.bindName b), Option.map_map]
    congr 1
    funext attempt
    exact view_within (.body b) ρ (Term.bindName b ρ) .lam (fun _ => rfl) attempt
  | app fn arg ihfn iharg =>
    -- Both searches stop at the same applications.
    have hredex := isRedex_denote hρ strategy.delta (.app fn arg)
    cases hrule : rule? strategy.delta (.app fn arg) with
    | some rule =>
      rw [hrule] at hredex
      simp only [first, hrule, Option.map_some, (here_denote hs he hrule ρ).1]
      exact (Nameless.leftmost?_of_isRedex hredex).symm
    | none =>
      rw [hrule] at hredex
      rw [Term.denote, Nameless.leftmost?_app hredex, ← ihfn he.1 hρ, ← iharg he.2 hρ]
      simp only [first, hrule]
      cases first strategy fn with
      | some attempt =>
        have hview := view_within (.fn arg) ρ ρ (fun t => .app t (arg.denote ρ)) (fun _ => rfl) attempt
        exact congrArg some hview
      | none =>
        simp only [Option.map_map, Option.map_none]
        congr 1
        funext attempt
        exact view_within (.arg fn) ρ ρ (.app (fn.denote ρ)) (fun _ => rfl) attempt

theorem first_givesWhole {strategy : Strategy S} (hs : strategy.Honours) {e : Term V S} (he : e.Whole)
    {attempt : Attempt S (Stop (ReduceError V S F)) (Contraction V S)} (h : first strategy e = some attempt) :
    GivesWhole attempt := by
  induction e generalizing attempt with
  | const v => cases h
  | var s => cases h
  | hole => exact absurd he Term.not_whole_hole
  | lam b body ih =>
    obtain ⟨inner, hinner, rfl⟩ := Option.map_eq_some_iff.mp h
    exact (ih he hinner).within (.body b) fun _ => id
  | app fn arg ihfn iharg =>
    simp only [first] at h
    split at h
    · rename_i rule hrule
      cases h
      exact (here_denote hs he hrule fun s => .ref (.free s)).2
    · split at h
      · rename_i inner hinner
        cases h
        exact (ihfn he.1 hinner).within (.fn arg) fun _ hw => ⟨hw, he.2⟩
      · obtain ⟨inner, hinner, rfl⟩ := Option.map_eq_some_iff.mp h
        exact (iharg he.2 hinner).within (.arg fn) fun _ hw => ⟨he.1, hw⟩

theorem refs_resolve (scope : List S) : Refs (fun s => (.ref (Ref.resolve scope s) : Nameless V S)) := fun _ => ⟨_, rfl⟩

end Step

namespace Term

variable [Domain V F] {strategy : Strategy S} {e : Term V S}

theorem first_nameless (hs : strategy.Honours) (he : e.Whole) :
    (Step.first strategy e).map (fun attempt => attempt.result.map fun c => c.whole.nameless []) =
      (e.nameless []).leftmost? strategy.delta := by
  simp only [nameless_eq_denote]
  exact Step.first_denote hs he (Step.refs_resolve [])

theorem step_of_normal (hs : strategy.Honours) (he : e.Whole)
    (h : (e.nameless []).leftmost? strategy.delta = none) : (e.step strategy).result = .ok none := by
  rw [← first_nameless hs he, Option.map_eq_none_iff] at h
  rw [step_eq, h]

theorem step_of_failure (hs : strategy.Honours) (he : e.Whole) {failure : Stop (ReduceError V S F)}
    (h : (e.nameless []).leftmost? strategy.delta = some (.error failure)) :
    (e.step strategy).result = .error failure := by
  rw [← first_nameless hs he] at h
  obtain ⟨⟨asked, result⟩, hfirst, hresult⟩ := Option.map_eq_some_iff.mp h
  rw [step_eq, hfirst]
  cases result with
  | error stop =>
    cases hresult
    rfl
  | ok c => cases hresult

theorem step_of_success (hs : strategy.Honours) (he : e.Whole) {t : Nameless V S}
    (h : (e.nameless []).leftmost? strategy.delta = some (.ok t)) :
    ∃ c, (e.step strategy).result = .ok (some c) ∧ c.whole.Whole ∧ c.whole.nameless [] = t := by
  rw [← first_nameless hs he] at h
  obtain ⟨⟨asked, result⟩, hfirst, hresult⟩ := Option.map_eq_some_iff.mp h
  rw [step_eq, hfirst]
  cases result with
  | error stop => cases hresult
  | ok c =>
    cases hresult
    exact ⟨c, rfl, Step.first_givesWhole hs he hfirst c rfl, rfl⟩

end Term

end PostfixLambda
