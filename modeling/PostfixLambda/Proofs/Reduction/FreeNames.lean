import Mathlib.Logic.Relation
import PostfixLambda.Proofs.Reduction.CaptureOnly
import PostfixLambda.Proofs.Reduction.Vocabulary
import PostfixLambda.Proofs.Substitution.FreeNames

/-! Reduction makes no names free. A step leaves free at most what was free before, whether or not binders are renamed
    on the way and wherever the term has holes; so does every run. -/

namespace PostfixLambda

open Relation

variable {V S F : Type} [DecidableEq S] [Domain V F]

/-! ### Steps -/

namespace Step

variable {strategy : Strategy S}

/-- What the attempt gives has at most the free names of the term. -/
def FreesNothing (e : Term V S) (attempt : Attempt S (Stop (ReduceError V S F)) (Contraction V S)) : Prop :=
  ∀ c, attempt.result = .ok c → ∀ s, c.whole.Free s → e.Free s

omit [DecidableEq S] [Domain V F] in
theorem FreesNothing.within {e : Term V S} {attempt : Attempt S (Stop (ReduceError V S F)) (Contraction V S)}
    (h : FreesNothing e attempt) (frame : Frame V S)
    (hframe : ∀ e', (∀ s, e'.Free s → e.Free s) → ∀ s, (frame.fill e').Free s → (frame.fill e).Free s) :
    FreesNothing (frame.fill e) (within frame attempt) := by
  obtain ⟨asked, stop | c⟩ := attempt
  · intro c hc
    cases hc
  · intro c' hc
    cases hc
    exact hframe c.whole (h c rfl)

theorem here_freesNothing (hrename : ∀ rename, strategy.rename? = some rename → rename.Honours) {e : Term V S}
    {rule : Rule} (hrule : rule? strategy.delta e = some rule) : FreesNothing (F := F) e (here strategy e rule) := by
  unfold rule? at hrule
  split at hrule
  · rename_i b body arg
    cases hrule
    intro c hc s hs
    simp only [here, contract, Term.betaReduce, Term.substitute] at hc
    cases hresult : (body.bind [(b, arg)] strategy.rename?).result with
    | error stop =>
      rw [hresult] at hc
      cases hc
    | ok e' =>
      rw [hresult] at hc
      cases hc
      -- What is free in the body stays free in the abstraction, unless it is the binder, and that is replaced.
      rcases (Term.bind_free hrename hresult s).mp hs with ⟨hbody, hnone⟩ | ⟨v, r, -, hr, harg⟩
      · refine Or.inl ⟨?_, hbody⟩
        rintro rfl
        simp [Env.find?] at hnone
      · simp only [Env.find?] at hr
        split at hr
        · cases hr
          exact Or.inr harg
        · cases hr
  · rename_i fn arg
    split at hrule
    · cases hrule
      intro c hc s hs
      simp only [here, contract, Term.deltaReduce, Dup.sound, Option.none_or] at hc
      split at hc
      · cases hc
        cases hs
      · cases hc
      · cases hc
    · cases hrule
  · cases hrule

theorem first_freesNothing (hrename : ∀ rename, strategy.rename? = some rename → rename.Honours) {e : Term V S}
    {attempt : Attempt S (Stop (ReduceError V S F)) (Contraction V S)} (h : first strategy e = some attempt) :
    FreesNothing e attempt := by
  induction e generalizing attempt with
  | const v => cases h
  | var s => cases h
  | hole =>
    cases h
    intro c hc
    cases hc
  | lam b body ih =>
    obtain ⟨inner, hinner, rfl⟩ := Option.map_eq_some_iff.mp h
    exact (ih hinner).within (.body b) fun e' he' s hs => ⟨hs.1, he' s hs.2⟩
  | app fn arg ihfn iharg =>
    simp only [first] at h
    split at h
    · rename_i rule hrule
      cases h
      exact here_freesNothing hrename hrule
    · split at h
      · rename_i inner hinner
        cases h
        exact (ihfn hinner).within (.fn arg) fun e' he' s hs => hs.imp_left (he' s)
      · obtain ⟨inner, hinner, rfl⟩ := Option.map_eq_some_iff.mp h
        exact (iharg hinner).within (.arg fn) fun e' he' s hs => hs.imp_right (he' s)

end Step

theorem Term.step_frees_nothing {strategy : Strategy S}
    (hrename : ∀ rename, strategy.rename? = some rename → rename.Honours) {e : Term V S} {c : Contraction V S}
    (h : (e.step (F := F) strategy).result = .ok (some c)) {s : S} (hs : c.whole.Free s) : e.Free s := by
  obtain ⟨attempt, hfirst, hresult⟩ := step_eq_some_iff.mp h
  exact Step.first_freesNothing hrename hfirst c hresult s hs

/-! ### Runs -/

namespace Reducer

variable [Shown S] {red : Reducer S} {ctx : Context}

/-- A run that ended has gone on to some progress, and ended there. -/
theorem proceeds_of_rounds {fuel : Nat} {p last : Progress V S} {how : Ending (HaltCause V S F)}
    (h : red.rounds ctx fuel p = some (how, last)) :
    ∃ q, ReflTransGen (red.Proceeds (F := F) ctx) p q ∧ red.round ctx q = .ended how last := by
  induction fuel generalizing p with
  | zero => cases h
  | succ fuel ih =>
    rw [rounds] at h
    split at h
    · rename_i how' last' hround
      cases h
      exact ⟨p, .refl, hround⟩
    · rename_i next hround
      obtain ⟨q, hq, hend⟩ := ih h
      exact ⟨q, .head hround hq, hend⟩

/-- The last round of a run leaves the term. -/
theorem term_of_round_ended {p last : Progress V S} {how : Ending (HaltCause V S F)}
    (h : red.round ctx p = .ended how last) : last.term = p.term := by
  rw [round_sound] at h
  split at h
  · cases h
    rfl
  · simp only at h
    split at h
    · cases h
      rfl
    · cases h
      rfl
    · cases h
      rfl
    · split at h
      · cases h
        rfl
      · cases h

/-- The result of a run is a term that the run passed. -/
theorem proceeds_of_normalize {fuel : Nat} {e e' : Term V S} {run : Run V S F}
    (hrun : red.normalize fuel ctx e = some run) (h : run.result = .ok e') :
    ∃ p, ReflTransGen (red.Proceeds (F := F) ctx) ⟨e, 0, 0, [], []⟩ p ∧ p.term = e' := by
  obtain ⟨⟨how, last⟩, hrounds, rfl⟩ := Option.map_eq_some_iff.mp hrun
  obtain ⟨p, hp, hend⟩ := proceeds_of_rounds hrounds
  refine ⟨p, hp, ?_⟩
  rw [← term_of_round_ended hend]
  rw [close_result] at h
  split at h
  · cases h
    rfl
  · cases h

theorem free_of_proceeds (hrename : ∀ rename, red.strategy.rename? = some rename → rename.Honours)
    {p q : Progress V S} (h : ReflTransGen (red.Proceeds (F := F) ctx) p q) {s : S} (hs : q.term.Free s) :
    p.term.Free s := by
  induction h with
  | refl => exact hs
  | @tail q next _ hnext ih =>
    refine ih ?_
    rw [Proceeds, round_sound] at hnext
    split at hnext
    · cases hnext
    · simp only at hnext
      split at hnext
      · cases hnext
      · cases hnext
      · cases hnext
      · rename_i c hc
        split at hnext
        · cases hnext
        · cases hnext
          exact Term.step_frees_nothing hrename hc hs

/-- Reduction makes no names free. Whatever the term, also one with holes, and whether constants are applied or not: if
    binders are not renamed, or by a renamer that honours its contract, the term after a step has at most the free names
    that the term had before, and so have all terms that a run passes, and its result. The free names of a term that was
    bound in an environment are those of the term that are not bound there, and those of the terms that its free names
    are bound to. -/
theorem makes_no_name_free (rename? : Option (Renamer S)) (hrename : ∀ rename, rename? = some rename → rename.Honours)
    (e : Term V S) :
    (∀ (red : Reducer S) (e' : Term V S) (stepped : Bool),
      ((red.renamingBy rename?).step (F := F) e).result = .ok (e', stepped) → e'.freeVars ⊆ e.freeVars) ∧
    (∀ (red : Reducer S) (ctx : Context),
      (∀ p, ReflTransGen ((red.renamingBy rename?).Proceeds (F := F) ctx) ⟨e, 0, 0, [], []⟩ p →
        p.term.freeVars ⊆ e.freeVars) ∧
      ∀ (fuel : Nat) (run : Run V S F) (e' : Term V S), (red.renamingBy rename?).normalize fuel ctx e = some run →
        run.result = .ok e' → e'.freeVars ⊆ e.freeVars) ∧
    ∀ (env : Env V S) (e' : Term V S), (e.bind env rename?).result = .ok e' →
      ∀ s, s ∈ e'.freeVars ↔ s ∈ e.freeVars ∧ env.find? s = none ∨
        ∃ v r, v ∈ e.freeVars ∧ env.find? v = some r ∧ s ∈ r.freeVars := by
  have hsame : ∀ (red : Reducer S) rename, (red.renamingBy rename?).strategy.rename? = some rename → rename.Honours :=
    fun _ => hrename
  have hpassed : ∀ (red : Reducer S) (ctx : Context) (p : Progress V S),
      ReflTransGen ((red.renamingBy rename?).Proceeds (F := F) ctx) ⟨e, 0, 0, [], []⟩ p →
        p.term.freeVars ⊆ e.freeVars := by
    intro red ctx p hp s hs
    rw [Term.mem_freeVars] at hs ⊢
    exact free_of_proceeds (hsame red) hp hs
  refine ⟨fun red e' stepped h => ?_, fun red ctx => ⟨hpassed red ctx, fun fuel run e' hrun h => ?_⟩,
    fun env e' h s => ?_⟩
  · simp only [step_sound] at h
    split at h
    · cases h
      exact List.Subset.refl _
    · rename_i c hc
      cases h
      intro s hs
      rw [Term.mem_freeVars] at hs ⊢
      exact Term.step_frees_nothing (hsame red) hc hs
    · cases h
  · obtain ⟨p, hp, rfl⟩ := proceeds_of_normalize hrun h
    exact hpassed red ctx p hp
  · simp only [Term.mem_freeVars]
    exact Term.bind_free hrename h s

/-- Below a binder `y`, `x` is replaced by `y`, and a hole stands beside the redex: the step renames the binder, and the
    fresh name is not free. The same for the body bound in an environment that binds a name it does not have to a
    hole. -/
theorem makes_no_name_free_renamed :
    (∃ e', (step (renamingBy ⟨⟨true, none⟩, 0, none, 0⟩ (some Renamer.primes)) (.app (.app (.lam "x" (.lam "y"
        (.app (.var "x") (.var "y")))) (.var "y")) .hole : Term Arith.Value Bytes)).result = .ok (e', true) ∧
      e' = .app (.lam "y'" (.app (.var "y") (.var "y'"))) .hole ∧ e'.freeVars ⊆ ["y"]) ∧
    ∃ e', ((.lam "y" (.app (.var "x") (.var "w")) : Term Arith.Value Bytes).bind [("x", .var "y"), ("z", .hole)]
        (some Renamer.primes)).result = .ok e' ∧ Bytes.ofString "y" ∈ e'.freeVars ∧
      Bytes.ofString "w" ∈ e'.freeVars := by
  have hrename : ∀ rename, some Renamer.primes = some rename → rename.Honours := by
    rintro rename ⟨⟩
    exact Renamer.primes_honours
  constructor
  · have htaken : (step (renamingBy ⟨⟨true, none⟩, 0, none, 0⟩ (some Renamer.primes)) (.app (.app (.lam "x" (.lam "y"
        (.app (.var "x") (.var "y")))) (.var "y")) .hole : Term Arith.Value Bytes)).result =
        .ok (.app (.lam "y'" (.app (.var "y") (.var "y'"))) .hole, true) := by decide +kernel
    obtain ⟨hstep, -⟩ := makes_no_name_free (F := Arith.Value.Fault) _ hrename (.app (.app (.lam "x" (.lam "y"
      (.app (.var "x") (.var "y")))) (.var "y")) .hole : Term Arith.Value Bytes)
    exact ⟨_, htaken, rfl, List.Subset.trans (hstep _ _ _ htaken) (by decide +kernel)⟩
  · have hbound : ((.lam "y" (.app (.var "x") (.var "w")) : Term Arith.Value Bytes).bind
        [("x", .var "y"), ("z", .hole)] (some Renamer.primes)).result =
        .ok (.lam "y'" (.app (.var "y") (.var "w"))) := by decide +kernel
    obtain ⟨-, -, hbind⟩ := makes_no_name_free (F := Arith.Value.Fault) _ hrename
      (.lam "y" (.app (.var "x") (.var "w")) : Term Arith.Value Bytes)
    have hfree := hbind _ _ hbound
    refine ⟨_, hbound, (hfree _).mpr (Or.inr ⟨"x", .var "y", ?_⟩), (hfree _).mpr (Or.inl ?_)⟩
    · decide +kernel
    · decide +kernel

end Reducer

end PostfixLambda
