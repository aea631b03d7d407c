import PostfixLambda.Proofs.Reduction.Refinement

/-! Runs for any host. A round of a run is a step, numbered after the steps before it, so a run follows successive steps
    for as long as its limit allows them. What they come to is handed over, unless the log function breaks down over
    the last line. -/

namespace PostfixLambda.Reducer

variable {V S F : Type} [DecidableEq S] [Domain V F] [Shown S]

/-! ### Steps -/

/-- What the step from a term comes to, after so many others. -/
def stepAfter (red : Reducer S) (host : Host V) (i : Nat) (e : Term V S) :
    Except (Stop (ReduceError V S F)) (Term V S × Bool) :=
  (step { red with steps := i } e host).result

/-- Successive steps lead from the term that comes after `i` of them to the one that comes after `j`. -/
inductive StepsTo (red : Reducer S) (host : Host V) : (i : Nat) → Term V S → (j : Nat) → Term V S → Prop where
  | refl (i : Nat) (e : Term V S) : StepsTo red host i e i e
  | step {i j : Nat} {e e' n : Term V S} (h : red.stepAfter host i e = .ok (e', true))
      (rest : StepsTo red host (i + 1) e' j n) : StepsTo red host i e j n

/-- No step leads on from the term that comes after `i` of them, and that is what they come to: the term itself where
    there is no redex in it, or else the error. A panic is an error too, recovered under the name `reduce`. -/
inductive EndsAfter (red : Reducer S) (host : Host V) (i : Nat) (e : Term V S) :
    Except (Halt V S F) (Term V S) → Prop where
  | normal (h : red.stepAfter host i e = .ok (e, false)) : EndsAfter red host i e (.ok e)
  | failed {error : ReduceError V S F} (h : red.stepAfter host i e = .error (.error error)) :
      EndsAfter red host i e (.error (.returned (.reduce error)))
  | broken {message : Bytes} (h : red.stepAfter host i e = .error (.panic message)) :
      EndsAfter red host i e (.error (.panicked "reduce" message))

variable {red : Reducer S} {host : Host V} {i j : Nat} {e n : Term V S} {p : Progress V S}
  {result : Except (Halt V S F) (Term V S)}

/-- A step that leads nowhere leaves the term. -/
theorem eq_of_stepAfter {e' : Term V S} (h : red.stepAfter host i e = .ok (e', false)) : e' = e := by
  simp only [stepAfter, step] at h
  split at h
  · cases h
    rfl
  · split at h <;> cases h
  · cases h

theorem leads_or_ends (red : Reducer S) (host : Host V) (i : Nat) (e : Term V S) :
    (∃ e', red.stepAfter host i e = .ok (e', true)) ∨ ∃ result, red.EndsAfter host i e result := by
  rcases h : red.stepAfter host i e with (error | message) | ⟨e', _ | _⟩
  · exact Or.inr ⟨_, .failed h⟩
  · exact Or.inr ⟨_, .broken h⟩
  · cases eq_of_stepAfter h
    exact Or.inr ⟨_, .normal h⟩
  · exact Or.inl ⟨e', rfl⟩

theorem StepsTo.le (h : red.StepsTo (F := F) host i e j n) : i ≤ j := by
  induction h with
  | refl => exact Nat.le_refl _
  | step _ _ ih => exact Nat.le_of_succ_le ih

/-- So many successive steps can be taken, or fewer lead to a term that no step leaves. -/
theorem stepsTo_or_ends (red : Reducer S) (host : Host V) (i d : Nat) (e : Term V S) :
    (∃ n, red.StepsTo host i e (i + d) n) ∨
      ∃ j n result, j < i + d ∧ red.StepsTo host i e j n ∧ red.EndsAfter host j n result := by
  induction d generalizing i e with
  | zero => exact Or.inl ⟨e, .refl i e⟩
  | succ d ih =>
    rw [← Nat.add_assoc, Nat.add_right_comm]
    rcases leads_or_ends red host i e with ⟨e', hstep⟩ | ⟨result, hend⟩
    · rcases ih (i + 1) e' with ⟨n, h⟩ | ⟨j, n, result, hj, h, hend⟩
      · exact Or.inl ⟨n, .step hstep h⟩
      · exact Or.inr ⟨j, n, result, hj, .step hstep h, hend⟩
    · exact Or.inr ⟨i, e, result, by omega, .refl i e, hend⟩

/-! ### Rounds -/

/-- A round takes the step from the term reached. -/
theorem round_eq (red : Reducer S) (ctx : Context) (p : Progress V S) (host : Host V) :
    red.round (F := F) ctx p host =
      match ctx p.lines p.steps with
      | some i => .halted (.interrupted i) p
      | none =>
        let taken := step { red with steps := p.steps } p.term host
        let p' := { p with asked := taken.asked.reverse ++ p.asked }
        match taken.result with
        | .error (.error e) => .halted (.reduce e) p'
        | .error (.panic message) => .ended (.panicked message) p'
        | .ok (_, false) => .ended (.returned none) p'
        | .ok (e', true) =>
          let p'' := { p' with lines := p.lines + taken.log.length, log := taken.log ++ p.log }
          if 0 < red.maxSteps ∧ red.maxSteps ≤ p.steps then .halted (.stepLimit p.steps) p''
          else .goesOn { p'' with term := e', steps := p.steps + 1 } := by
  unfold round step
  cases ctx p.lines p.steps with
  | some i => rfl
  | none =>
    simp only
    rcases (p.term.step (F := F) red.strategy host.dup).result with (error | message) | (_ | c)
    · rfl
    · rfl
    · rfl
    · have hsay : say { red with steps := p.steps } host.log (fun _ => stepLine (p.steps + 1) c) =
          red.say host.log fun _ => stepLine (p.steps + 1) c := rfl
      simp only [hsay]
      cases red.say host.log fun _ => stepLine (p.steps + 1) c <;> rfl

theorem round_of_stepAfter {e' : Term V S} (h : red.stepAfter host p.steps p.term = .ok (e', true))
    (hlimit : red.maxSteps = 0 ∨ p.steps < red.maxSteps) :
    ∃ next, red.round .background p host = .goesOn next ∧ next.term = e' ∧ next.steps = p.steps + 1 := by
  have hallowed : ¬(0 < red.maxSteps ∧ red.maxSteps ≤ p.steps) := by omega
  unfold stepAfter at h
  simp only [round_eq, Context.background, h, if_neg hallowed]
  exact ⟨_, rfl, rfl, rfl⟩

theorem round_of_stepAfter_over {e' : Term V S} (h : red.stepAfter host p.steps p.term = .ok (e', true))
    (hover : 0 < red.maxSteps ∧ red.maxSteps ≤ p.steps) :
    ∃ last, red.round .background p host = .halted (.stepLimit p.steps) last ∧ last.steps = p.steps := by
  unfold stepAfter at h
  simp only [round_eq, Context.background, h, if_pos hover]
  exact ⟨_, rfl, rfl⟩

/-- A round from a term that no step leaves is the last one. -/
theorem round_of_endsAfter (h : red.EndsAfter host p.steps p.term result) :
    ∃ how last, red.round .background p host = .ended how last ∧ last.steps = p.steps ∧
      (red.close how last).result = result := by
  cases h with
  | normal h | failed h | broken h =>
    unfold stepAfter at h
    simp only [round_eq, Context.background, h, Round.halted]
    exact ⟨_, _, rfl, rfl, close_result ..⟩

/-- A run whose limit allows the steps to a term that no step leaves ends there. -/
theorem rounds_of_stepsTo (h : red.StepsTo host i e j n) (hn : red.EndsAfter host j n result) (hp : p.term = e)
    (hi : p.steps = i) (hlimit : red.maxSteps = 0 ∨ j ≤ red.maxSteps) :
    ∃ fuel how last, red.rounds .background fuel p host = some (how, last) ∧ last.steps = j ∧
      (red.close how last).result = result := by
  induction h generalizing p with
  | refl i e =>
    subst hp hi
    obtain ⟨how, last, hround, hsteps, hresult⟩ := round_of_endsAfter hn
    refine ⟨1, how, last, ?_, hsteps, hresult⟩
    rw [rounds, hround]
  | step hstep rest ih =>
    subst hp hi
    have hle := rest.le
    obtain ⟨next, hround, hterm, hsteps⟩ := round_of_stepAfter hstep (by omega)
    obtain ⟨fuel, how, last, hlast, htotal, hresult⟩ := ih hn hterm hsteps hlimit
    refine ⟨fuel + 1, how, last, ?_, htotal, hresult⟩
    rw [rounds, hround]
    exact hlast

/-- A run whose steps lead beyond its limit is stopped by it. -/
theorem rounds_of_stepsTo_over (h : red.StepsTo (F := F) host i e j n) (hp : p.term = e) (hi : p.steps = i)
    (hlimit : 0 < red.maxSteps) (hle : i ≤ red.maxSteps) (hover : red.maxSteps < j) :
    ∃ fuel last, red.rounds .background fuel p host =
        some (.returned (some (.returned (.stepLimit red.maxSteps))), last) ∧ last.steps = red.maxSteps := by
  induction h generalizing p with
  | refl i e => omega
  | step hstep rest ih =>
    subst hp hi
    -- The step beyond the limit is taken before it is refused, so the limit itself is reached.
    rcases Nat.eq_or_lt_of_le hle with hsteps | hlt
    · obtain ⟨last, hround, hlast⟩ := round_of_stepAfter_over hstep ⟨hlimit, Nat.le_of_eq hsteps.symm⟩
      refine ⟨1, last, ?_, hlast.trans hsteps⟩
      rw [rounds, hround, hsteps]
      rfl
    · obtain ⟨next, hround, hterm, hsteps⟩ := round_of_stepAfter hstep (Or.inr hlt)
      obtain ⟨fuel, last, hlast, htotal⟩ := ih hterm hsteps hlt hover
      refine ⟨fuel + 1, last, ?_, htotal⟩
      rw [rounds, hround]
      exact hlast

/-- A run that has ended has ended with more rounds to go as well. -/
theorem rounds_add {ctx : Context} {fuel : Nat} {outcome : Ending (HaltCause V S F) × Progress V S}
    (h : red.rounds ctx fuel p host = some outcome) (more : Nat) :
    red.rounds ctx (fuel + more) p host = some outcome := by
  induction fuel generalizing p with
  | zero => cases h
  | succ fuel ih =>
    rw [Nat.add_right_comm, rounds]
    rw [rounds] at h
    split at h
    · exact h
    · exact ih h

/-! ### Answers -/

/-- What is handed over to who asked for a run: a result, or the message of a panic that goes through. -/
def Outcome.answer : Outcome V S F → Except Bytes (Except (Halt V S F) (Term V S))
  | .returned run => .ok run.result
  | .escaped message _ => .error message

/-- The steps that are counted when a run is over. -/
def Outcome.steps : Outcome V S F → Nat
  | .returned run => run.steps
  | .escaped _ last => last.steps

/-- What becomes of a result that a run comes to: it is handed over, unless the log function breaks down over the last
    line. -/
def handedOver (red : Reducer S) (log : LogFunction) (result : Except (Halt V S F) (Term V S)) (steps : Nat) :
    Except Bytes (Except (Halt V S F) (Term V S)) :=
  (red.say log fun _ => lastLine result steps).map fun _ => result

/-- The run from `e` that nothing interrupts is over after so many steps, and hands that over. -/
def Answers (red : Reducer S) (host : Host V) (e : Term V S)
    (answer : Except Bytes (Except (Halt V S F) (Term V S))) (steps : Nat) : Prop :=
  ∃ fuel outcome, red.normalizeFor host fuel .background e = some outcome ∧ outcome.answer = answer ∧
    outcome.steps = steps

theorem Answers.unique {answer answer' : Except Bytes (Except (Halt V S F) (Term V S))} {steps steps' : Nat}
    (h : red.Answers host e answer steps) (h' : red.Answers host e answer' steps') :
    answer = answer' ∧ steps = steps' := by
  obtain ⟨fuel, outcome, hrun, rfl, rfl⟩ := h
  obtain ⟨fuel', outcome', hrun', rfl, rfl⟩ := h'
  obtain ⟨ended, hrounds, rfl⟩ := Option.map_eq_some_iff.mp hrun
  obtain ⟨ended', hrounds', rfl⟩ := Option.map_eq_some_iff.mp hrun'
  -- With the rounds of both to go, each run ends as it did with its own.
  have hmore := rounds_add hrounds fuel'
  rw [Nat.add_comm, rounds_add hrounds' fuel] at hmore
  cases hmore
  exact ⟨rfl, rfl⟩

omit [DecidableEq S] in
theorem conclude_answer (red : Reducer S) (log : LogFunction) (how : Ending (HaltCause V S F)) (last : Progress V S) :
    (red.conclude log how last).answer = red.handedOver log (red.close how last).result last.steps ∧
      (red.conclude log how last).steps = last.steps := by
  simp only [conclude, handedOver, close_steps]
  cases red.say log fun _ => lastLine (red.close how last).result last.steps with
  | ok new => exact ⟨rfl, close_steps ..⟩
  | error message => exact ⟨rfl, rfl⟩

theorem answers_of_rounds {fuel : Nat} {how : Ending (HaltCause V S F)} {last : Progress V S}
    (h : red.rounds .background fuel ⟨e, 0, 0, [], []⟩ host = some (how, last)) :
    red.Answers host e (red.handedOver host.log (red.close how last).result last.steps) last.steps := by
  obtain ⟨hanswer, hsteps⟩ := conclude_answer red host.log how last
  refine ⟨fuel, red.conclude host.log how last, ?_, hanswer, hsteps⟩
  rw [normalizeFor, h]
  rfl

/-- A run hands over what the term that its steps lead to ends with, if the limit allows the steps. -/
theorem answers_of_ends (h : red.StepsTo host 0 e j n) (hn : red.EndsAfter host j n result)
    (hlimit : red.maxSteps = 0 ∨ j ≤ red.maxSteps) : red.Answers host e (red.handedOver host.log result j) j := by
  obtain ⟨fuel, how, last, hlast, rfl, rfl⟩ := rounds_of_stepsTo h hn (p := ⟨e, 0, 0, [], []⟩) rfl rfl hlimit
  exact answers_of_rounds hlast

theorem answers_of_over (h : red.StepsTo (F := F) host 0 e j n) (hlimit : 0 < red.maxSteps) (hover : red.maxSteps < j) :
    red.Answers (F := F) host e (red.handedOver host.log (.error (.returned (.stepLimit red.maxSteps))) red.maxSteps)
      red.maxSteps := by
  obtain ⟨fuel, last, hlast, hsteps⟩ :=
    rounds_of_stepsTo_over h (p := ⟨e, 0, 0, [], []⟩) rfl rfl hlimit (Nat.zero_le _) hover
  have hanswers := answers_of_rounds hlast
  rwa [close_result, hsteps] at hanswers

end PostfixLambda.Reducer
