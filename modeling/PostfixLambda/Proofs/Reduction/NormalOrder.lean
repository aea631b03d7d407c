import PostfixLambda.Proofs.Nameless.Standardization
import PostfixLambda.Proofs.Reduction.Rounds

/-! Normal forms are found: if the nameless form of a term can be reduced to a normal form in any way at all, the steps
    of a reducer lead to a term of that form, and a run within its limit returns it. -/

namespace PostfixLambda.Reducer

open Relation

variable {V S F : Type} [DecidableEq S] [Domain V F] [Shown S] {red : Reducer S}

/-! ### Successive steps -/

/-- So many successive steps lead from one term to the other. -/
inductive Reaches (red : Reducer S) : Nat → Term V S → Term V S → Prop where
  | refl (e : Term V S) : Reaches red 0 e e
  | step {k : Nat} {e e' e'' : Term V S} (h : (red.step e).result = .ok (e', true)) (rest : Reaches red k e' e'') :
      Reaches red (k + 1) e e''

theorem Reaches.trans {j k : Nat} {e e' e'' : Term V S} (h : red.Reaches j e e') (h' : red.Reaches k e' e'') :
    red.Reaches (j + k) e e'' := by
  induction h with
  | refl e =>
    rw [Nat.zero_add]
    exact h'
  | step hstep _ ih =>
    rw [Nat.add_right_comm]
    exact .step hstep (ih h')

/-- What a step comes to depends on how the reducer contracts, and on nothing else of it. -/
theorem step_result_congr {red' : Reducer S} (h : red'.strategy = red.strategy) (e : Term V S) :
    (red'.step e).result = (red.step e).result := by
  simp only [step_sound, h]
  split <;> rfl

theorem Reaches.of_strategy {k : Nat} {e e' : Term V S} (h : red.Reaches k e e') (red' : Reducer S)
    (hs : red'.strategy = red.strategy) : red'.Reaches k e e' := by
  induction h with
  | refl e => exact .refl e
  | @step k e e' e'' h _ ih =>
    rw [← step_result_congr hs] at h
    exact .step h ih

/-- The limit of a reducer is one of its runs, not of its single steps. -/
theorem Reaches.limited {k : Nat} {e e' : Term V S} (h : red.Reaches k e e') (m : Nat) :
    Reaches { red with maxSteps := m } k e e' :=
  h.of_strategy { red with maxSteps := m } rfl

/-- Steps of normal order on the nameless form are taken by the reducer. -/
theorem reaches_of_leftmosts (hdelta : red.strategy.delta = false) (hs : red.strategy.Honours) {e : Term V S}
    (he : e.Whole) {t : Nameless V S} (h : ReflTransGen Nameless.Leftmost (e.nameless []) t) :
    ∃ k e', red.Reaches k e e' ∧ e'.Whole ∧ e'.nameless [] = t := by
  generalize hform : e.nameless [] = u at h
  induction h using ReflTransGen.head_induction_on generalizing e with
  | refl => exact ⟨0, e, .refl e, he, hform⟩
  | head step _ ih =>
    rw [← hform] at step
    unfold Nameless.Leftmost at step
    rw [← hdelta] at step
    obtain ⟨c, hc, hwhole, hnext⟩ := Term.step_of_success hs he step
    obtain ⟨k, e', hreaches, he', ht⟩ := ih hwhole hnext
    exact ⟨k + 1, e', .step (step_of_some hc) hreaches, he', ht⟩

/-! ### What a step attempts -/

theorem attempt_of_step {e e' : Term V S} (h : (red.step e).result = .ok (e', true)) :
    ∃ c, (e.step red.strategy).result = .ok (some c) ∧ c.whole = e' := by
  simp only [step_sound] at h
  split at h
  · cases h
  · rename_i c hc
    cases h
    exact ⟨c, hc, rfl⟩
  · cases h

theorem attempt_of_no_step {e : Term V S} (h : (red.step e).result = .ok (e, false)) :
    (e.step red.strategy).result = .ok none := by
  simp only [step_sound] at h
  split at h
  · assumption
  · cases h
  · cases h

theorem round_of_no_step {p : Progress V S} (h : (red.step p.term).result = .ok (p.term, false)) :
    ∃ last, red.round .background p = .ended (.returned none) last ∧ last.term = p.term ∧ last.steps = p.steps := by
  simp only [round_sound, Context.background, attempt_of_no_step h]
  exact ⟨_, rfl, rfl, rfl⟩

theorem attempt_of_failure {e : Term V S} {stop : Stop (ReduceError V S F)} (h : (red.step e).result = .error stop) :
    (e.step red.strategy).result = .error stop := by
  simp only [step_sound] at h
  split at h
  · cases h
  · cases h
  · rename_i hstop
    cases h
    exact hstop

theorem no_step_of_rounds {ctx : Context} {fuel : Nat} {p last : Progress V S}
    (h : red.rounds (F := F) ctx fuel p = some (.returned none, last)) :
    (last.term.step (F := F) red.strategy).result = .ok none := by
  induction fuel generalizing p with
  | zero => cases h
  | succ fuel ih =>
    rw [rounds] at h
    split at h
    · rename_i how last' hround
      cases h
      rw [round_sound] at hround
      split at hround
      · cases hround
      · simp only at hround
        split at hround
        · cases hround
        · cases hround
        · rename_i hnone
          cases hround
          exact hnone
        · split at hround <;> cases hround
    · exact ih h

/-! ### Normal forms -/

/-- No step is left from the result of a run. -/
theorem no_step_of_normalize {ctx : Context} {fuel : Nat} {e e' : Term V S} {run : Run V S F}
    (hrun : red.normalize fuel ctx e = some run) (h : run.result = .ok e') :
    (e'.step (F := F) red.strategy).result = .ok none := by
  obtain ⟨⟨how, last⟩, hrounds, rfl⟩ := Option.map_eq_some_iff.mp hrun
  rw [close_result] at h
  cases how with
  | returned error? =>
    cases error? with
    | none =>
      cases h
      exact no_step_of_rounds hrounds
    | some error => cases h
  | panicked value => cases h
  | panickedWith error => cases h
  | exited => cases h

/-! ### Hosts that never break down -/

/-- It does not matter how a step is numbered. -/
theorem stepAfter_sound (red : Reducer S) (i : Nat) (e : Term V S) :
    red.stepAfter (F := F) .sound i e = (red.step e).result := by
  have hs : ({ red with steps := i } : Reducer S).strategy = red.strategy := rfl
  exact step_result_congr hs e

theorem Reaches.stepsTo {k : Nat} {e n : Term V S} (h : red.Reaches k e n) : red.StepsTo .sound 0 e k n := by
  suffices ∀ i, red.StepsTo .sound i e (i + k) n by simpa only [Nat.zero_add] using this 0
  induction h with
  | refl e => exact fun i => .refl i e
  | @step k e e' n hstep _ ih =>
    intro i
    rw [← stepAfter_sound red i] at hstep
    refine .step hstep ?_
    rw [Nat.add_comm k, ← Nat.add_assoc]
    exact ih (i + 1)

omit [DecidableEq S] in
theorem handedOver_sound (red : Reducer S) (result : Except (Halt V S F) (Term V S)) (steps : Nat) :
    red.handedOver .sound result steps = .ok result := by
  rw [handedOver, say_sound]
  rfl

/-! ### Runs -/

/-- The run from `e` that nothing interrupts ends, after so many steps, with that result. -/
def Gives (red : Reducer S) (e : Term V S) (result : Except (Halt V S F) (Term V S)) (steps : Nat) : Prop :=
  ∃ fuel run, red.normalize fuel .background e = some run ∧ run.result = result ∧ run.steps = steps

/-- A host that never breaks down lets every result be handed over. -/
theorem gives_iff_answers {e : Term V S} {result : Except (Halt V S F) (Term V S)} {steps : Nat} :
    red.Gives e result steps ↔ red.Answers .sound e (.ok result) steps := by
  constructor
  · rintro ⟨fuel, run, hrun, rfl, rfl⟩
    exact ⟨fuel, .returned run, by rw [normalizeFor_sound, hrun]; rfl, rfl, rfl⟩
  · rintro ⟨fuel, outcome, hrun, hanswer, hsteps⟩
    rw [normalizeFor_sound, Option.map_eq_some_iff] at hrun
    obtain ⟨run, hrun, rfl⟩ := hrun
    exact ⟨fuel, run, hrun, Except.ok.inj hanswer, hsteps⟩

theorem Gives.unique {e : Term V S} {result result' : Except (Halt V S F) (Term V S)} {steps steps' : Nat}
    (h : red.Gives e result steps) (h' : red.Gives e result' steps') : result = result' ∧ steps = steps' := by
  obtain ⟨hresult, hsteps⟩ := (gives_iff_answers.mp h).unique (gives_iff_answers.mp h')
  exact ⟨Except.ok.inj hresult, hsteps⟩

/-- A run gives what the term that its steps lead to ends with, if the limit allows the steps. -/
theorem gives_of_ends {k : Nat} {e n : Term V S} (h : red.Reaches k e n) {result : Except (Halt V S F) (Term V S)}
    (hn : red.EndsAfter .sound k n result) (hlimit : red.maxSteps = 0 ∨ k ≤ red.maxSteps) : red.Gives e result k := by
  have hanswers := answers_of_ends h.stepsTo hn hlimit
  rw [handedOver_sound] at hanswers
  exact gives_iff_answers.mpr hanswers

theorem gives_of_reaches {k : Nat} {e n : Term V S} (h : red.Reaches k e n)
    (hn : (red.step n).result = .ok (n, false)) (hlimit : red.maxSteps = 0 ∨ k ≤ red.maxSteps) :
    red.Gives e (.ok n) k :=
  gives_of_ends h (.normal ((stepAfter_sound red k n).trans hn)) hlimit

theorem gives_of_reaches_over {k : Nat} {e n : Term V S} (h : red.Reaches k e n) (hlimit : 0 < red.maxSteps)
    (hover : red.maxSteps < k) : red.Gives e (.error (.returned (.stepLimit red.maxSteps))) red.maxSteps := by
  have hanswers := answers_of_over h.stepsTo hlimit hover
  rw [handedOver_sound] at hanswers
  exact gives_iff_answers.mpr hanswers

theorem gives_iff_of_reaches {k : Nat} {e n : Term V S} (h : red.Reaches k e n)
    (hn : (red.step n).result = .ok (n, false)) (hlimit : 0 < red.maxSteps) (steps : Nat) :
    red.Gives e (.ok n) steps ↔ k ≤ red.maxSteps ∧ steps = k := by
  constructor
  · intro hgives
    by_cases hle : k ≤ red.maxSteps
    · exact ⟨hle, (hgives.unique (gives_of_reaches h hn (Or.inr hle))).2⟩
    · obtain ⟨hresult, -⟩ := hgives.unique (gives_of_reaches_over h hlimit (by omega))
      cases hresult
  · rintro ⟨hle, rfl⟩
    exact gives_of_reaches h hn (Or.inr hle)

/-- Every normal form is found. If steps of beta reduction, at any places and in any order, lead from the nameless form
    of a whole term to one that no such step leaves, then the steps of a reducer without the delta rule, whose renamer
    honours its contract, all succeed and lead to a term of that form, on which no step is left. Without a limit a run
    returns that term after as many steps; within a limit it does exactly if the limit allows them. -/
theorem finds_normal_form (red : Reducer S) (e : Term V S) (n : Nameless V S) (hdelta : red.strategy.delta = false)
    (hs : red.strategy.Honours) (he : e.Whole) (hbetas : ReflTransGen Nameless.Beta (e.nameless []) n)
    (hn : ∀ t, ¬Nameless.Beta n t) :
    ∃ k e', red.Reaches k e e' ∧ (red.step e').result = .ok (e', false) ∧ e'.nameless [] = n ∧
      Gives { red with maxSteps := 0 } e (.ok e') k ∧
      ∀ m, 0 < m → ∀ steps, Gives { red with maxSteps := m } e (.ok e') steps ↔ k ≤ m ∧ steps = k := by
  have hnormal := Nameless.normal_iff_no_beta.mpr hn
  obtain ⟨k, e', hreaches, he', rfl⟩ := reaches_of_leftmosts hdelta hs he (Nameless.leftmosts_of_betas hbetas hnormal)
  have hend : (red.step e').result = .ok (e', false) := by
    rw [step_refused_iff hs he', hdelta]
    exact hnormal
  refine ⟨k, e', hreaches, hend, rfl, gives_of_reaches (hreaches.limited 0) hend (Or.inl rfl), fun m hm steps => ?_⟩
  exact gives_iff_of_reaches (hreaches.limited m) hend hm steps

/-- A constant function applied to a term without a normal form: reducing the argument first leads back to the term
    itself, but the steps of a reducer lead to the constant. -/
theorem finds_normal_form_past_loop :
    ∃ k e', Reaches ⟨⟨false, some Renamer.primes⟩, 0, none, 0⟩ k
        (.app (.lam [0x78] (.var [0x79])) (.app (.lam [0x78] (.app (.var [0x78]) (.var [0x78])))
          (.lam [0x78] (.app (.var [0x78]) (.var [0x78])))) : Term Arith.Value Bytes) e' ∧
      e'.nameless [] = .ref (.free [0x79]) := by
  have hloop : Nameless.Beta
      (.app (.lam (.ref (.free [0x79]))) (.app (.lam (.app (.ref (.bound 0)) (.ref (.bound 0))))
        (.lam (.app (.ref (.bound 0)) (.ref (.bound 0))))) : Nameless Arith.Value Bytes)
      (.app (.lam (.ref (.free [0x79]))) (.app (.lam (.app (.ref (.bound 0)) (.ref (.bound 0))))
        (.lam (.app (.ref (.bound 0)) (.ref (.bound 0)))))) := .arg _ (.contract _ _)
  obtain ⟨k, e', hreaches, -, hform, -⟩ := finds_normal_form ⟨⟨false, some Renamer.primes⟩, 0, none, 0⟩
    (.app (.lam [0x78] (.var [0x79])) (.app (.lam [0x78] (.app (.var [0x78]) (.var [0x78])))
      (.lam [0x78] (.app (.var [0x78]) (.var [0x78])))) : Term Arith.Value Bytes) (.ref (.free [0x79])) rfl
    ⟨_, rfl, Renamer.primes_honours⟩ (by decide) (.head hloop (.single (.contract _ _)))
    fun t ht => by cases ht
  exact ⟨k, e', hreaches, hform⟩

end PostfixLambda.Reducer
