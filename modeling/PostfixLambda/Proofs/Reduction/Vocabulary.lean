import Mathlib.Logic.Relation
import PostfixLambda.Proofs.Reduction.Refinement
import PostfixLambda.Proofs.Substitution.Emission

/-! Reduction keeps to a vocabulary, and fails in few ways. From a term over a vocabulary every term that a run passes
    is over it, and what can stop the run is a capture if binders are not renamed, two constants of the vocabulary
    that the domain refuses if constants are applied, the step limit if there is one, and an interruption. -/

namespace PostfixLambda

open Relation

variable {V S F : Type} [DecidableEq S] {voc : Vocabulary V S}

/-! ### Failures of a substitution -/

/-- On whole terms a substitution whose renamer, if there is one, honours its contract fails by a capture only, and only
    if there is none. -/
theorem Term.bind_error {e : Term V S} {env : Env V S} {rename? : Option (Renamer S)} (he : e.Whole)
    (henv : ∀ s r, env.find? s = some r → r.Whole) (hrename : ∀ rename, rename? = some rename → rename.Honours)
    {stop : Stop (TermError S)} (h : (e.bind env rename?).result = .error stop) :
    rename? = none ∧ ∃ b v, stop = .error (.capture b v) := by
  cases rename? with
  | some rename =>
    obtain ⟨e', hok, -⟩ := Term.bind_of_honours he henv (hrename rename rfl)
    rw [hok] at h
    cases h
  | none =>
    rw [bind, Walk.run, Walk.drain_eq_rebuild] at h
    split at h
    · cases h
    · rename_i r hr
      cases h
      exact ⟨rfl, Walk.capture_of_rebuild_plain henv he hr⟩

/-! ### Steps -/

/-- The strategy keeps to the vocabulary: its renamer, if there is one, honours its contract and chooses names of the
    vocabulary, and constants of it are applied to constants of it only. -/
structure Strategy.KeepsTo [Domain V F] (voc : Vocabulary V S) (strategy : Strategy S) : Prop where
  honours : ∀ rename, strategy.rename? = some rename → rename.Honours
  renames : ∀ rename, strategy.rename? = some rename → rename.KeepsTo voc
  combines : strategy.delta = true → ∀ fn arg v, voc.const fn → voc.const arg →
    Domain.combine (F := F) fn arg = .value v → voc.const v

/-- How a step can fail: by a capture without a renamer, or because the domain refuses two constants. -/
inductive Strategy.Fails [Domain V F] (voc : Vocabulary V S) (strategy : Strategy S) :
    Stop (ReduceError V S F) → Prop where
  | capture (h : strategy.rename? = none) (b v : S) : Fails voc strategy (.error (.term (.capture b v)))
  | combine (h : strategy.delta = true) {fn arg : V} {failure : Stop (ReduceError V S F)} (hfn : voc.const fn)
      (harg : voc.const arg) (hfails : Nameless.CombineFails fn arg failure) : Fails voc strategy failure

namespace Step

variable [Domain V F] {strategy : Strategy S}

/-- The attempt gives a term over the vocabulary, or fails as a step can fail. -/
structure KeepsTo (voc : Vocabulary V S) (strategy : Strategy S)
    (attempt : Attempt S (Stop (ReduceError V S F)) (Contraction V S)) : Prop where
  whole_over : ∀ c, attempt.result = .ok c → c.whole.Over voc
  fails : ∀ stop, attempt.result = .error stop → strategy.Fails voc stop

omit [DecidableEq S] in
theorem KeepsTo.of_ok {c : Contraction V S} (h : c.whole.Over voc) (asked : List (Call S)) :
    KeepsTo (F := F) voc strategy ⟨asked, .ok c⟩ where
  whole_over c' hc := by
    cases hc
    exact h
  fails stop hstop := by cases hstop

omit [DecidableEq S] in
theorem KeepsTo.of_error {stop : Stop (ReduceError V S F)} (h : strategy.Fails voc stop) (asked : List (Call S)) :
    KeepsTo voc strategy ⟨asked, .error stop⟩ where
  whole_over c hc := by cases hc
  fails stop' hstop := by
    cases hstop
    exact h

omit [DecidableEq S] in
theorem KeepsTo.within {attempt : Attempt S (Stop (ReduceError V S F)) (Contraction V S)}
    (ha : KeepsTo voc strategy attempt) (frame : Frame V S) (h : ∀ e, e.Over voc → (frame.fill e).Over voc) :
    KeepsTo voc strategy (within frame attempt) := by
  obtain ⟨asked, stop | c⟩ := attempt
  · exact .of_error (ha.fails stop rfl) asked
  · exact .of_ok (h _ (ha.whole_over c rfl)) asked

theorem here_keepsTo (hs : strategy.KeepsTo (F := F) voc) {e : Term V S} (he : e.Over voc) {rule : Rule}
    (hrule : rule? strategy.delta e = some rule) : KeepsTo (F := F) voc strategy (here strategy e rule) := by
  unfold rule? at hrule
  split at hrule
  · rename_i b body arg
    cases hrule
    obtain ⟨⟨-, hbody⟩, harg⟩ := he
    have henv : Env.Over voc [(b, arg)] := .single harg
    simp only [here, contract, Term.betaReduce, Term.substitute]
    cases hresult : (body.bind [(b, arg)] strategy.rename?).result with
    | ok e' => exact .of_ok (Term.bind_over hbody henv hs.renames hresult) _
    | error stop =>
      obtain ⟨hnone, b', v, rfl⟩ := Term.bind_error hbody.whole henv.whole hs.honours hresult
      exact .of_error (.capture hnone b' v) _
  · rename_i fn arg
    split at hrule
    · rename_i hdelta
      cases hrule
      simp only [here, contract, Term.deltaReduce]
      cases hcombine : Domain.combine (F := F) fn arg with
      | value v =>
        have hv : (Term.const v : Term V S).Over voc := hs.combines hdelta fn arg v he.1 he.2 hcombine
        exact .of_ok hv _
      | fault fault => exact .of_error (.combine hdelta he.1 he.2 (Or.inl ⟨fault, hcombine, rfl⟩)) _
      | panic message => exact .of_error (.combine hdelta he.1 he.2 (Or.inr ⟨message, hcombine, rfl⟩)) _
    · cases hrule
  · cases hrule

theorem first_keepsTo (hs : strategy.KeepsTo (F := F) voc) {e : Term V S} (he : e.Over voc)
    {attempt : Attempt S (Stop (ReduceError V S F)) (Contraction V S)} (h : first strategy e = some attempt) :
    KeepsTo voc strategy attempt := by
  induction e generalizing attempt with
  | const v => cases h
  | var s => cases h
  | hole => exact absurd he id
  | lam b body ih =>
    obtain ⟨inner, hinner, rfl⟩ := Option.map_eq_some_iff.mp h
    exact (ih he.2 hinner).within (.body b) fun _ hbody => ⟨he.1, hbody⟩
  | app fn arg ihfn iharg =>
    simp only [first] at h
    split at h
    · rename_i rule hrule
      cases h
      exact here_keepsTo hs he hrule
    · split at h
      · rename_i inner hinner
        cases h
        exact (ihfn he.1 hinner).within (.fn arg) fun _ hfn => ⟨hfn, he.2⟩
      · obtain ⟨inner, hinner, rfl⟩ := Option.map_eq_some_iff.mp h
        exact (iharg he.2 hinner).within (.arg fn) fun _ harg => ⟨he.1, harg⟩

end Step

namespace Term

variable [Domain V F] {strategy : Strategy S} {e : Term V S}

/-- A step from a term over the vocabulary leads to one. -/
theorem step_over (hs : strategy.KeepsTo (F := F) voc) (he : e.Over voc) {c : Contraction V S}
    (h : (e.step (F := F) strategy).result = .ok (some c)) : c.whole.Over voc := by
  obtain ⟨attempt, hfirst, hresult⟩ := step_eq_some_iff.mp h
  exact (Step.first_keepsTo hs he hfirst).whole_over c hresult

theorem step_fails (hs : strategy.KeepsTo (F := F) voc) (he : e.Over voc) {stop : Stop (ReduceError V S F)}
    (h : (e.step strategy).result = .error stop) : strategy.Fails voc stop := by
  obtain ⟨attempt, hfirst, hresult⟩ := step_eq_error_iff.mp h
  exact (Step.first_keepsTo hs he hfirst).fails stop hresult

end Term

/-! ### Runs -/

namespace Reducer

variable [Domain V F] [Shown S] {red : Reducer S}

/-- How a run can fail: as a step can, at its limit, or by an interruption. -/
inductive Fails (voc : Vocabulary V S) (red : Reducer S) (ctx : Context) : Ending (HaltCause V S F) → Prop where
  | error {e : ReduceError V S F} (h : red.strategy.Fails voc (.error e)) :
      Fails voc red ctx (.returned (some (.returned (.reduce e))))
  | panic {message : Bytes} (h : red.strategy.Fails voc (F := F) (.panic message)) :
      Fails voc red ctx (.panicked message)
  | stepLimit (h : 0 < red.maxSteps) (steps : Nat) : Fails voc red ctx (.returned (some (.returned (.stepLimit steps))))
  | interrupted {lines steps : Nat} {i : Interruption} (h : ctx lines steps = some i) :
      Fails voc red ctx (.returned (some (.returned (.interrupted i))))

/-- A round from a term over the vocabulary goes on to one, ends there, or fails as a run can fail. -/
inductive RoundKeepsTo (voc : Vocabulary V S) (red : Reducer S) (ctx : Context) : Round V S F → Prop where
  | goesOn {next : Progress V S} (h : next.term.Over voc) : RoundKeepsTo voc red ctx (.goesOn next)
  | ended {last : Progress V S} (h : last.term.Over voc) : RoundKeepsTo voc red ctx (.ended (.returned none) last)
  | failed {how : Ending (HaltCause V S F)} (h : Fails voc red ctx how) (last : Progress V S) :
      RoundKeepsTo voc red ctx (.ended how last)

theorem round_keepsTo (hs : red.strategy.KeepsTo (F := F) voc) (ctx : Context) {p : Progress V S}
    (hp : p.term.Over voc) :
    RoundKeepsTo (F := F) voc red ctx (red.round ctx p) := by
  rw [round_sound]
  split
  · rename_i i hi
    exact .failed (.interrupted hi) p
  · simp only
    split
    · rename_i e he
      exact .failed (.error (Term.step_fails hs hp he)) _
    · rename_i message hmessage
      exact .failed (.panic (Term.step_fails hs hp hmessage)) _
    · exact .ended hp
    · rename_i c hc
      split
      · rename_i hlimit
        exact .failed (.stepLimit hlimit.1 _) _
      · exact .goesOn (Term.step_over hs hp hc)

theorem rounds_keepsTo (hs : red.strategy.KeepsTo (F := F) voc) {ctx : Context} {fuel : Nat} {p last : Progress V S}
    {how : Ending (HaltCause V S F)} (hp : p.term.Over voc) (h : red.rounds ctx fuel p = some (how, last)) :
    how = .returned none ∧ last.term.Over voc ∨ Fails voc red ctx how := by
  induction fuel generalizing p with
  | zero => cases h
  | succ fuel ih =>
    have hround := round_keepsTo hs ctx hp
    rw [rounds] at h
    split at h
    · rename_i how' last' hr
      cases h
      rw [hr] at hround
      cases hround with
      | ended hlast => exact Or.inl ⟨rfl, hlast⟩
      | failed hfails => exact Or.inr hfails
    · rename_i next hr
      rw [hr] at hround
      cases hround with
      | goesOn hnext => exact ih hnext h

/-- The result of a run from a term over the vocabulary is over it. -/
theorem normalize_over (hs : red.strategy.KeepsTo (F := F) voc) {ctx : Context} {fuel : Nat} {e e' : Term V S}
    {run : Run V S F} (he : e.Over voc) (hrun : red.normalize fuel ctx e = some run) (h : run.result = .ok e') :
    e'.Over voc := by
  obtain ⟨⟨how, last⟩, hrounds, rfl⟩ := Option.map_eq_some_iff.mp hrun
  rw [close_result] at h
  rcases rounds_keepsTo hs he hrounds with ⟨rfl, hlast⟩ | hfails
  · cases h
    exact hlast
  · cases hfails <;> cases h

theorem normalize_fails (hs : red.strategy.KeepsTo (F := F) voc) {ctx : Context} {fuel : Nat} {e : Term V S}
    {run : Run V S F} (he : e.Over voc) (hrun : red.normalize fuel ctx e = some run) {halt : Halt V S F}
    (h : run.result = .error halt) : ∃ how, Fails voc red ctx how ∧ recover "reduce" how = some halt := by
  obtain ⟨⟨how, last⟩, hrounds, rfl⟩ := Option.map_eq_some_iff.mp hrun
  rw [close_result] at h
  rcases rounds_keepsTo hs he hrounds with ⟨rfl, -⟩ | hfails
  · cases h
  · cases hrecover : recover "reduce" how with
    | none =>
      rw [hrecover] at h
      cases h
    | some halt' =>
      rw [hrecover] at h
      cases h
      exact ⟨how, hfails, hrecover⟩

/-- A run goes on from one progress to the next. -/
def Proceeds (red : Reducer S) (ctx : Context) (p next : Progress V S) : Prop :=
  red.round (F := F) ctx p = .goesOn next

/-- Every term that a run passes is over the vocabulary. -/
theorem over_of_proceeds (hs : red.strategy.KeepsTo (F := F) voc) {ctx : Context} {p q : Progress V S} (hp : p.term.Over voc)
    (h : ReflTransGen (red.Proceeds ctx) p q) : q.term.Over voc := by
  induction h with
  | refl => exact hp
  | @tail q r _ hstep ih =>
    have hround := round_keepsTo hs ctx ih
    unfold Proceeds at hstep
    rw [hstep] at hround
    cases hround with
    | goesOn hnext => exact hnext

end Reducer

end PostfixLambda
