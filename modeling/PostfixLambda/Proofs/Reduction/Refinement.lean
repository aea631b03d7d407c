import PostfixLambda.Arith.Value
import PostfixLambda.Proofs.Reduction.Simulation

/-! Reduction of terms refines reduction of their nameless forms: a step is reported, is not, or fails just as the step
    of normal order on the nameless form says. So runs from terms that differ in the names of their binders only go the
    same way, whatever their renamers choose. -/

namespace PostfixLambda.Reducer

variable {V S F : Type} [DecidableEq S] [Domain V F] [Shown S]

/-! ### Single steps -/

section Step

variable {red : Reducer S} {e : Term V S}

theorem step_of_none (h : (e.step red.strategy).result = .ok none) : (red.step e).result = .ok (e, false) := by
  simp only [step_sound, h]

theorem step_of_error {failure : Stop (ReduceError V S F)} (h : (e.step red.strategy).result = .error failure) :
    (red.step e).result = .error failure := by
  simp only [step_sound, h]

theorem step_of_some {c : Contraction V S} (h : (e.step red.strategy).result = .ok (some c)) :
    (red.step e).result = .ok (c.whole, true) := by
  simp only [step_sound, h]

/-- A step is what the nameless form says: its end, its failure, or a step to a term of the form that it steps to. -/
theorem step_cases (hs : red.strategy.Honours) (he : e.Whole) :
    ((e.nameless []).leftmost? red.strategy.delta = none ∧ (red.step e).result = .ok (e, false)) ∨
    (∃ failure, (e.nameless []).leftmost? red.strategy.delta = some (.error failure) ∧
      (red.step e).result = .error failure) ∨
    ∃ e', (e.nameless []).leftmost? red.strategy.delta = some (.ok (e'.nameless [])) ∧ e'.Whole ∧
      (red.step e).result = .ok (e', true) := by
  rcases h : (e.nameless []).leftmost? red.strategy.delta with _ | failure | t
  · exact Or.inl ⟨rfl, step_of_none (Term.step_of_normal hs he h)⟩
  · exact Or.inr (Or.inl ⟨failure, rfl, step_of_error (Term.step_of_failure hs he h)⟩)
  · obtain ⟨c, hc, hwhole, rfl⟩ := Term.step_of_success hs he h
    exact Or.inr (Or.inr ⟨c.whole, rfl, hwhole, step_of_some hc⟩)

theorem step_taken_iff (hs : red.strategy.Honours) (he : e.Whole) (t : Nameless V S) :
    (∃ e', (red.step e).result = .ok (e', true) ∧ e'.nameless [] = t) ↔
      (e.nameless []).leftmost? red.strategy.delta = some (.ok t) := by
  rcases step_cases hs he with ⟨h, hr⟩ | ⟨failure, h, hr⟩ | ⟨e', h, -, hr⟩
  · simp [h, hr]
  · simp [h, hr]
  · simp [h, hr]

theorem step_refused_iff (hs : red.strategy.Honours) (he : e.Whole) :
    (red.step e).result = .ok (e, false) ↔ (e.nameless []).Normal red.strategy.delta := by
  rw [← Nameless.leftmost?_eq_none_iff]
  rcases step_cases hs he with ⟨h, hr⟩ | ⟨failure, h, hr⟩ | ⟨e', h, -, hr⟩
  · simp [h, hr]
  · simp [h, hr]
  · simp [h, hr]

theorem step_failed_iff (hs : red.strategy.Honours) (he : e.Whole) (failure : Stop (ReduceError V S F)) :
    (red.step e).result = .error failure ↔
      (e.nameless []).leftmost? red.strategy.delta = some (.error failure) := by
  rcases step_cases hs he with ⟨h, hr⟩ | ⟨failure, h, hr⟩ | ⟨e', h, -, hr⟩
  · simp [h, hr]
  · simp [h, hr]
  · simp [h, hr]

end Step

/-! ### Runs of two reducers -/

/-- The reducers contract by the same rules, within the same limit, and each renames by a renamer that honours its
    contract. -/
structure SameRules (red red' : Reducer S) : Prop where
  delta : red.strategy.delta = red'.strategy.delta
  maxSteps : red.maxSteps = red'.maxSteps
  honours : red.strategy.Honours
  honours' : red'.strategy.Honours

/-- Both runs see the same of the context: it does not depend on the lines logged, or as many are logged. -/
def SeenAlike (red red' : Reducer S) (ctx : Context) (p p' : Progress V S) : Prop :=
  (∀ m n, ctx m = ctx n) ∨ red.logLevel?.isSome = red'.logLevel?.isSome ∧ p.lines = p'.lines

/-- The runs are at whole terms that differ in the names of their binders only, after as many steps. -/
structure Alike (red red' : Reducer S) (ctx : Context) (p p' : Progress V S) : Prop where
  whole : p.term.Whole
  whole' : p'.term.Whole
  term : p.term.AlphaEq p'.term
  steps : p.steps = p'.steps
  seen : SeenAlike red red' ctx p p'

/-- Two rounds end alike, or go on alike. -/
inductive RoundAlike (red red' : Reducer S) (ctx : Context) : Round V S F → Round V S F → Prop where
  | ended (how : Ending (HaltCause V S F)) {last last' : Progress V S} (term : last.term.AlphaEq last'.term)
      (steps : last.steps = last'.steps) : RoundAlike red red' ctx (.ended how last) (.ended how last')
  | goesOn {next next' : Progress V S} (h : Alike red red' ctx next next') :
      RoundAlike red red' ctx (.goesOn next) (.goesOn next')

omit [DecidableEq S] [Shown S] in
theorem length_logged (red : Reducer S) (line : Unit → Bytes) :
    (red.logged line).length = if red.logLevel?.isSome then 1 else 0 := by
  unfold logged
  cases red.logLevel? <;> rfl

/-- One round keeps two runs alike: what it does depends on the nameless form of the term only. -/
theorem round_alike {red red' : Reducer S} (hrules : SameRules red red') {ctx : Context} {p p' : Progress V S}
    (h : Alike red red' ctx p p') : RoundAlike (F := F) red red' ctx (red.round ctx p) (red'.round ctx p') := by
  have hctx : ctx p.lines p.steps = ctx p'.lines p'.steps := by
    rw [← h.steps]
    rcases h.seen with hc | ⟨-, hl⟩
    · exact congrFun (hc _ _) _
    · rw [hl]
  -- Both rounds take the step of one nameless form, each with its own renamer.
  have hleft : (p'.term.nameless []).leftmost? red'.strategy.delta =
      (p.term.nameless []).leftmost? red.strategy.delta := by
    rw [h.term, hrules.delta]
  simp only [round_sound, ← hctx]
  cases ctx p.lines p.steps with
  | some i => exact .ended _ h.term h.steps
  | none =>
    rcases hl : (p.term.nameless []).leftmost? red.strategy.delta with _ | (failure | message) | t
    · rw [hl] at hleft
      rw [Term.step_of_normal hrules.honours h.whole hl, Term.step_of_normal hrules.honours' h.whole' hleft]
      exact .ended _ h.term h.steps
    · rw [hl] at hleft
      rw [Term.step_of_failure hrules.honours h.whole hl, Term.step_of_failure hrules.honours' h.whole' hleft]
      exact .ended _ h.term h.steps
    · rw [hl] at hleft
      rw [Term.step_of_failure hrules.honours h.whole hl, Term.step_of_failure hrules.honours' h.whole' hleft]
      exact .ended _ h.term h.steps
    · rw [hl] at hleft
      obtain ⟨c, hc, hwhole, hform⟩ := Term.step_of_success hrules.honours h.whole hl
      obtain ⟨c', hc', hwhole', hform'⟩ := Term.step_of_success hrules.honours' h.whole' hleft
      rw [hc, hc']
      simp only [← hrules.maxSteps, ← h.steps]
      split
      · exact .ended _ h.term rfl
      · refine .goesOn ⟨hwhole, hwhole', hform.trans hform'.symm, rfl, ?_⟩
        rcases h.seen with hc | ⟨hlog, hlines⟩
        · exact Or.inl hc
        · refine Or.inr ⟨hlog, ?_⟩
          simp only [length_logged, hlog, hlines]

/-- Runs that start alike take as many rounds, and end alike. -/
theorem rounds_alike {red red' : Reducer S} (hrules : SameRules red red') {ctx : Context} (fuel : Nat)
    {p p' : Progress V S} (h : Alike red red' ctx p p') :
    (red.rounds (F := F) ctx fuel p).map (fun (how, last) => (how, last.term.nameless [], last.steps)) =
      (red'.rounds ctx fuel p').map fun (how, last) => (how, last.term.nameless [], last.steps) := by
  induction fuel generalizing p p' with
  | zero => rfl
  | succ fuel ih =>
    have hround := round_alike (F := F) hrules h
    simp only [rounds]
    generalize red.round ctx p = r at hround ⊢
    generalize red'.round ctx p' = r' at hround ⊢
    cases hround with
    | ended how hterm hsteps =>
      unfold Term.AlphaEq at hterm
      simp only [Option.map_some, hterm, hsteps]
    | goesOn hnext => exact ih hnext

/-! ### Normal forms -/

omit [DecidableEq S] in
theorem close_result (red : Reducer S) (how : Ending (HaltCause V S F)) (last : Progress V S) :
    (red.close how last).result =
      match recover "reduce" how with
      | none => .ok last.term
      | some error => .error error := by
  rfl

omit [DecidableEq S] in
theorem close_steps (red : Reducer S) (how : Ending (HaltCause V S F)) (last : Progress V S) :
    (red.close how last).steps = last.steps := by
  rfl

/-- What a run shows of itself apart from names: its error or the nameless form of its result, and its steps. -/
def Run.nameless (run : Run V S F) : Except (Halt V S F) (Nameless V S) × Nat :=
  (run.result.map (Term.nameless []), run.steps)

/-- The same of an ended run, by how it ended and where. -/
def closed (how : Ending (HaltCause V S F)) (t : Nameless V S) (steps : Nat) :
    Except (Halt V S F) (Nameless V S) × Nat :=
  match recover "reduce" how with
  | none => (.ok t, steps)
  | some error => (.error error, steps)

theorem nameless_close (red : Reducer S) (how : Ending (HaltCause V S F)) (last : Progress V S) :
    (red.close how last).nameless = closed how (last.term.nameless []) last.steps := by
  simp only [Run.nameless, close_result, close_steps, closed]
  cases recover "reduce" how <;> rfl

theorem normalize_alike {red red' : Reducer S} (hrules : SameRules red red') {e e' : Term V S} (he : e.Whole)
    (he' : e'.Whole) (h : e.AlphaEq e') {ctx : Context}
    (hctx : (∀ m n, ctx m = ctx n) ∨ red.logLevel?.isSome = red'.logLevel?.isSome) (fuel : Nat) :
    (red.normalize (F := F) fuel ctx e).map Run.nameless = (red'.normalize fuel ctx e').map Run.nameless := by
  have hrounds := rounds_alike (F := F) hrules fuel
    (⟨he, he', h, rfl, hctx.imp id fun hlog => ⟨hlog, rfl⟩⟩ :
      Alike red red' ctx ⟨e, 0, 0, [], []⟩ ⟨e', 0, 0, [], []⟩)
  have hclosed := congrArg (Option.map fun (how, t, steps) => closed how t steps) hrounds
  simpa only [normalize, Option.map_map, Function.comp_def, nameless_close] using hclosed

/-- Reduction refines normal order on nameless terms. From a whole term, with a renamer that honours its contract, a
    step is reported exactly when normal order takes one on the nameless form, and to a term of the form it leads to;
    none is reported exactly if no part of the form is a redex; and a step fails exactly if the first redex applies a
    constant to a constant and the domain refuses them, with that failure. So reducers with the same rules, from terms
    that differ in the names of their binders only, come to the same end after as many steps. -/
theorem refines_nameless (red : Reducer S) (e : Term V S) (hs : red.strategy.Honours) (he : e.Whole) :
    (∀ t, (∃ e', (red.step e).result = .ok (e', true) ∧ e'.nameless [] = t) ↔
      (e.nameless []).leftmost? red.strategy.delta = some (.ok t)) ∧
    ((red.step e).result = .ok (e, false) ↔ (e.nameless []).Normal red.strategy.delta) ∧
    (∀ failure, (red.step e).result = .error failure ↔
      ∃ fn arg around, (e.nameless []).first? red.strategy.delta = some (.app (.const fn) (.const arg), around) ∧
        Nameless.CombineFails fn arg failure) ∧
    ∀ (red' : Reducer S) (e' : Term V S) (ctx : Context) (fuel : Nat), SameRules red red' → e'.Whole → e.AlphaEq e' →
      ((∀ m n, ctx m = ctx n) ∨ red.logLevel?.isSome = red'.logLevel?.isSome) →
      (red.normalize fuel ctx e).map Run.nameless = (red'.normalize fuel ctx e').map Run.nameless := by
  refine ⟨step_taken_iff hs he, step_refused_iff hs he, fun failure => ?_, ?_⟩
  · rw [step_failed_iff hs he, Nameless.leftmost?_eq_error_iff]
  · intro red' e' ctx fuel hrules he' halpha hctx
    exact normalize_alike hrules he he' halpha hctx fuel

/-- A constant function that ignores `y`, applied to `y`: with primes or with underscores in front, and with another
    name for the binder that captures, the step leads to the function that gives `y`. -/
theorem refines_nameless_capture :
    (∃ e', (step ⟨⟨true, some Renamer.primes⟩, 0, none, 0⟩
      (.app (.lam [0x78] (.lam [0x79] (.var [0x78]))) (.var [0x79]) : Term Arith.Value Bytes)).result = .ok (e', true) ∧
      e'.nameless [] = .lam (.ref (.free [0x79]))) ∧
    (normalize ⟨⟨true, some Renamer.primes⟩, 0, none, 0⟩ 2 .background
      (.app (.lam [0x78] (.lam [0x79] (.var [0x78]))) (.var [0x79]) : Term Arith.Value Bytes)).map Run.nameless =
    (normalize ⟨⟨true, some (.search fun s => 0x5F :: s)⟩, 0, none, 0⟩ 2 .background
      (.app (.lam [0x78] (.lam [0x7A] (.var [0x78]))) (.var [0x79]) : Term Arith.Value Bytes)).map Run.nameless := by
  have hprimes : Strategy.Honours ⟨true, some Renamer.primes⟩ := ⟨_, rfl, Renamer.primes_honours⟩
  have hunderscores : Strategy.Honours ⟨true, some (.search fun s : Bytes => 0x5F :: s)⟩ :=
    ⟨_, rfl, Renamer.search_honours (m := List.length) fun s => Nat.lt_succ_self s.length⟩
  have h := refines_nameless ⟨⟨true, some Renamer.primes⟩, 0, none, 0⟩
    (.app (.lam [0x78] (.lam [0x79] (.var [0x78]))) (.var [0x79]) : Term Arith.Value Bytes) hprimes (by decide)
  exact ⟨(h.1 _).mpr rfl, h.2.2.2 _ _ .background 2 ⟨rfl, rfl, hprimes, hunderscores⟩ (by decide) rfl
    (Or.inl fun _ _ => rfl)⟩

end PostfixLambda.Reducer
