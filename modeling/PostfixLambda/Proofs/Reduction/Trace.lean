import Mathlib.Data.List.Basic
import PostfixLambda.Proofs.Reduction.Refinement

/-! The trace of a run, where the log function takes every line. A run logs one line for each term that it contracts,
    numbered from one on without a gap, and a last line about its end. It counts what it contracts, but for one
    contraction: a run that is stopped by its limit has contracted and traced the step that the limit then refuses. -/

namespace PostfixLambda

/-- Successive contractions, one for each step, that lead from one term to another. -/
inductive Contractions {V S F : Type} [DecidableEq S] [Domain V F] (strategy : Strategy S) :
    Term V S → List (Contraction V S) → Term V S → Prop where
  | nil (e : Term V S) : Contractions strategy e [] e
  | concat {e e' : Term V S} {cs : List (Contraction V S)} {c : Contraction V S} (h : Contractions strategy e cs e')
      (hc : (e'.step (F := F) strategy).result = .ok (some c)) : Contractions strategy e (cs ++ [c]) c.whole

namespace Reducer

variable {V S F : Type}

/-! ### Lines -/

/-- The lines of contractions, numbered from one on. -/
def stepLines [Shown V] [Shown S] (cs : List (Contraction V S)) : List Bytes :=
  cs.mapIdx fun i c => stepLine (i + 1) c

/-- The lines that a reducer logs for contractions: none, if it does not trace. -/
def traceOf [Shown V] [Shown S] (red : Reducer S) (cs : List (Contraction V S)) : List Bytes :=
  if red.logLevel?.isSome then stepLines cs else []

/-- The line of a step begins with the sign of a number. -/
def isStepLine (line : Bytes) : Bool := line.head? = some 0x23

theorem isStepLine_stepLine [Shown V] [Shown S] (number : Nat) (c : Contraction V S) :
    isStepLine (stepLine number c) = true := by
  rfl

theorem reverse_logged (red : Reducer S) (line : Unit → Bytes) : (red.logged line).reverse = red.logged line := by
  unfold logged
  cases red.logLevel? <;> rfl

theorem traceOf_concat [Shown V] [Shown S] (red : Reducer S) (cs : List (Contraction V S)) (c : Contraction V S) :
    red.traceOf (cs ++ [c]) = red.traceOf cs ++ red.logged fun _ => stepLine (cs.length + 1) c := by
  unfold traceOf logged
  cases red.logLevel? with
  | none => rfl
  | some level => simp [stepLines, List.mapIdx_append]

theorem filter_traceOf [Shown V] [Shown S] (red : Reducer S) (cs : List (Contraction V S)) :
    (red.traceOf cs).filter isStepLine = red.traceOf cs := by
  rw [List.filter_eq_self]
  intro line hline
  unfold traceOf at hline
  split at hline
  · obtain ⟨i, hi, rfl⟩ := List.mem_mapIdx.mp hline
    exact isStepLine_stepLine _ _
  · cases hline

/-- A last line that is that of no step is left out. -/
theorem filter_traceOf_append_logged [Shown V] [Shown S] (red : Reducer S) (cs : List (Contraction V S)) {line : Bytes}
    (h : isStepLine line = false) :
    (red.traceOf cs ++ red.logged fun _ => line).filter isStepLine = red.traceOf cs := by
  rw [List.filter_append, filter_traceOf, List.append_right_eq_self, List.filter_eq_nil_iff]
  intro l hl
  unfold logged at hl
  split at hl
  · rw [List.mem_singleton.mp hl, h]
    exact Bool.false_ne_true
  · cases hl

/-! ### Rounds -/

variable [DecidableEq S] [Domain V F] [Shown S]

/-- A run from `e` has come to `p` by these contractions, has traced them all and counted them all, and is within its
    limit. -/
structure Traced (red : Reducer S) (e : Term V S) (cs : List (Contraction V S)) (p : Progress V S) : Prop where
  contractions : Contractions red.strategy e cs p.term
  log : p.log = (red.traceOf cs).reverse
  steps : p.steps = cs.length
  within : 0 < red.maxSteps → p.steps ≤ red.maxSteps

/-- How a run that ended has traced its contractions. -/
inductive EndTraced (red : Reducer S) (e : Term V S) :
    List (Contraction V S) → Ending (HaltCause V S F) → Progress V S → Prop where
  /-- All of them are counted. -/
  | counted {cs : List (Contraction V S)} {how : Ending (HaltCause V S F)} {last : Progress V S}
      (h : Traced red e cs last) (hnot : ∀ n, how ≠ .returned (some (.returned (.stepLimit n)))) :
      EndTraced red e cs how last
  /-- The last of them is the one that the limit refused. -/
  | refused {e' : Term V S} {cs : List (Contraction V S)} {n : Nat} {last : Progress V S}
      (contractions : Contractions red.strategy e cs e') (log : last.log = (red.traceOf cs).reverse)
      (limit : 0 < red.maxSteps) (steps : last.steps = red.maxSteps) (beyond : cs.length = red.maxSteps + 1) :
      EndTraced red e cs (.returned (some (.returned (.stepLimit n)))) last

/-- The line of a round's step comes after those of the steps before it. -/
theorem Traced.log_concat {red : Reducer S} {e : Term V S} {cs : List (Contraction V S)} {p : Progress V S}
    (h : Traced red e cs p) (c : Contraction V S) :
    (red.logged fun _ => stepLine (p.steps + 1) c) ++ p.log = (red.traceOf (cs ++ [c])).reverse := by
  rw [traceOf_concat, List.reverse_append, reverse_logged, h.log, h.steps]

/-- A round contracts and traces one more, or it is the last. -/
theorem round_traced {red : Reducer S} {e : Term V S} {cs : List (Contraction V S)} {p : Progress V S}
    (h : Traced red e cs p) (ctx : Context) :
    (∃ c next, red.round (F := F) ctx p = .goesOn next ∧ Traced red e (cs ++ [c]) next) ∨
      ∃ cs' how last, red.round (F := F) ctx p = .ended how last ∧ EndTraced red e cs' how last := by
  rw [round_sound]
  split
  · exact Or.inr ⟨cs, _, _, rfl, .counted h fun n hn => by cases hn⟩
  · -- What the round asked of a renamer is no part of the trace.
    have hasked (asked : List (Call S)) : Traced red e cs { p with asked := asked } :=
      ⟨h.contractions, h.log, h.steps, h.within⟩
    simp only
    split
    · exact Or.inr ⟨cs, _, _, rfl, .counted (hasked _) fun n hn => by cases hn⟩
    · exact Or.inr ⟨cs, _, _, rfl, .counted (hasked _) fun n hn => by cases hn⟩
    · exact Or.inr ⟨cs, _, _, rfl, .counted (hasked _) fun n hn => by cases hn⟩
    · rename_i c hc
      have hnext := h.contractions.concat hc
      split
      · -- The step is contracted and traced before the limit refuses it.
        rename_i hlimit
        have hsteps : p.steps = red.maxSteps := Nat.le_antisymm (h.within hlimit.1) hlimit.2
        have hover : (cs ++ [c]).length = red.maxSteps + 1 := by rw [List.length_append, ← h.steps, hsteps]; rfl
        refine Or.inr ⟨cs ++ [c], _, _, rfl, ?_⟩
        exact .refused hnext (h.log_concat c) hlimit.1 hsteps hover
      · rename_i hlimit
        refine Or.inl ⟨c, _, rfl, hnext, h.log_concat c, ?_, fun hmax => ?_⟩
        · simp [h.steps]
        · simp only
          omega

theorem rounds_traced {red : Reducer S} {e : Term V S} {cs : List (Contraction V S)} {ctx : Context} {fuel : Nat}
    {p last : Progress V S} {how : Ending (HaltCause V S F)} (h : Traced (F := F) red e cs p)
    (hrun : red.rounds ctx fuel p = some (how, last)) : ∃ cs', EndTraced red e cs' how last := by
  induction fuel generalizing p cs with
  | zero => cases hrun
  | succ fuel ih =>
    rw [rounds] at hrun
    rcases round_traced h ctx with ⟨c, next, hround, hnext⟩ | ⟨cs', how', last', hround, hended⟩
    · rw [hround] at hrun
      exact ih hnext hrun
    · rw [hround] at hrun
      cases hrun
      exact ⟨cs', hended⟩

theorem traced_start (red : Reducer S) (e : Term V S) : Traced (F := F) red e [] ⟨e, 0, 0, [], []⟩ := by
  refine ⟨.nil e, ?_, rfl, fun _ => Nat.zero_le _⟩
  unfold traceOf
  split <;> rfl

/-! ### Runs -/

omit [DecidableEq S] in
theorem isStepLine_lastLine (result : Except (Halt V S F) (Term V S)) (steps : Nat) :
    isStepLine (lastLine result steps) = false := by
  cases result <;> rfl

omit [DecidableEq S] in
theorem close_log (red : Reducer S) (how : Ending (HaltCause V S F)) (last : Progress V S) :
    (red.close how last).log =
      last.log.reverse ++ red.logged fun _ => lastLine (red.close how last).result last.steps := by
  simp only [close, List.reverse_append, reverse_logged]

/-- The run was stopped by its limit. -/
def StoppedAtLimit (run : Run V S F) : Prop := ∃ n, run.result = .error (.returned (.stepLimit n))

omit [DecidableEq S] in
/-- Only a run that its limit stops returns that it did. -/
theorem how_of_stepLimit {red : Reducer S} {how : Ending (HaltCause V S F)} {last : Progress V S} {n : Nat}
    (h : (red.close how last).result = .error (.returned (.stepLimit n))) :
    how = .returned (some (.returned (.stepLimit n))) := by
  rw [close_result] at h
  rcases how with (_ | error) | value | error | _
  · cases h
  · cases h
    rfl
  · cases h
  · cases h
  · cases h

section Ended

variable {red : Reducer S} {e : Term V S} {cs : List (Contraction V S)} {how : Ending (HaltCause V S F)}
  {last : Progress V S}

/-- Counted or not, every contraction is traced, and the last one leads to the result. -/
theorem EndTraced.contractions (h : EndTraced red e cs how last) :
    ∃ e', Contractions (F := F) red.strategy e cs e' ∧ last.log = (red.traceOf cs).reverse ∧
      ∀ res, (red.close how last).result = .ok res → res = e' := by
  cases h with
  | counted h hnot =>
    refine ⟨last.term, h.contractions, h.log, fun res hres => ?_⟩
    rw [close_result] at hres
    split at hres
    · exact (Except.ok.inj hres).symm
    · cases hres
  | refused contractions log limit steps beyond =>
    refine ⟨_, contractions, log, fun res hres => ?_⟩
    rw [close_result] at hres
    cases hres

theorem EndTraced.counted_of_not_limit (h : EndTraced red e cs how last) (hnot : ¬StoppedAtLimit (red.close how last)) :
    last.steps = cs.length ∧ (0 < red.maxSteps → cs.length ≤ red.maxSteps) := by
  cases h with
  | counted h _ => exact ⟨h.steps, fun hmax => h.steps ▸ h.within hmax⟩
  | refused => exact absurd ⟨_, close_result ..⟩ hnot

theorem EndTraced.refused_of_limit (h : EndTraced red e cs how last) (hlimit : StoppedAtLimit (red.close how last)) :
    0 < red.maxSteps ∧ last.steps = red.maxSteps ∧ cs.length = last.steps + 1 := by
  cases h with
  | counted h hnot =>
    obtain ⟨n, hn⟩ := hlimit
    exact absurd (how_of_stepLimit hn) (hnot n)
  | refused contractions log limit steps beyond => exact ⟨limit, steps, by omega⟩

end Ended

/-- The trace of a run, whose log function takes every line, shows its contractions, one after the other and numbered
    from one on. They are as many as the steps counted, and lead to the result, if the run was not stopped by its limit;
    if it was, one more was contracted and traced than the limit allows. A last line, which is that of no step, is about
    the end of the run. -/
theorem trace_shows_contractions (red : Reducer S) (ctx : Context) (fuel : Nat) (e : Term V S) (run : Run V S F)
    (hrun : red.normalize fuel ctx e = some run) :
    ∃ cs e', Contractions (F := F) red.strategy e cs e' ∧ run.log.filter isStepLine = red.traceOf cs ∧
      (∃ line, isStepLine line = false ∧ run.log = red.traceOf cs ++ red.logged fun _ => line) ∧
      (¬StoppedAtLimit run → run.steps = cs.length ∧ (0 < red.maxSteps → cs.length ≤ red.maxSteps)) ∧
      (StoppedAtLimit run → 0 < red.maxSteps ∧ run.steps = red.maxSteps ∧ cs.length = run.steps + 1) ∧
      ∀ res, run.result = .ok res → res = e' := by
  obtain ⟨⟨how, last⟩, hrounds, rfl⟩ := Option.map_eq_some_iff.mp hrun
  obtain ⟨cs, hended⟩ := rounds_traced (traced_start red e) hrounds
  obtain ⟨e', hcontractions, hlast, hres⟩ := hended.contractions
  have hlog := close_log red how last
  have hline := isStepLine_lastLine (red.close how last).result last.steps
  rw [hlast, List.reverse_reverse] at hlog
  refine ⟨cs, e', hcontractions, ?_, ⟨_, hline, hlog⟩, ?_, ?_, hres⟩
  · rw [hlog, filter_traceOf_append_logged red cs hline]
  · rw [close_steps]
    exact hended.counted_of_not_limit
  · rw [close_steps]
    exact hended.refused_of_limit

/-- Three steps lead to a constant applied to a constant that is not callable: three lines, and one about the error. -/
theorem trace_shows_contractions_failing :
    ∃ (run : Run Arith.Value Bytes Arith.Value.Fault) (cs : List (Contraction Arith.Value Bytes)),
      normalize (F := Arith.Value.Fault) ⟨⟨true, none⟩, 3, some [], 0⟩ 4 .background
        (.app (.lam [0x78] (.app (.var [0x78]) (.var [0x78]))) (.app (.lam [0x79] (.var [0x79])) (.const (.int 1))) :
          Term Arith.Value Bytes) = some run ∧
      run.result = .error (.returned (.reduce (.combine (.int 1) (.int 1) (.notCallable (.int 1))))) ∧
      run.log.filter isStepLine = stepLines cs ∧ run.steps = 3 ∧ cs.length = 3 := by
  obtain ⟨run, hrun, houtcome⟩ : ∃ run, normalize (F := Arith.Value.Fault) ⟨⟨true, none⟩, 3, some [], 0⟩ 4 .background
        (.app (.lam [0x78] (.app (.var [0x78]) (.var [0x78]))) (.app (.lam [0x79] (.var [0x79])) (.const (.int 1))) :
          Term Arith.Value Bytes) = some run ∧
      (run.result, run.steps) =
        (.error (.returned (.reduce (.combine (.int 1) (.int 1) (.notCallable (.int 1))))), 3) :=
    Option.map_eq_some_iff.mp (by decide +kernel)
  obtain ⟨hresult, hsteps⟩ := Prod.mk.inj houtcome
  obtain ⟨cs, -, -, hlog, -, hcounted, -⟩ := trace_shows_contractions _ _ _ _ run hrun
  have hnot : ¬StoppedAtLimit run := by
    rintro ⟨n, hn⟩
    rw [hresult] at hn
    cases hn
  exact ⟨run, cs, hrun, hresult, hlog, hsteps, (hcounted hnot).1.symm.trans hsteps⟩

/-- A term that steps to itself, with a limit of one step: one step is counted, and two are contracted and traced. -/
theorem refused_step_traced :
    ∃ run, normalize (F := Arith.Value.Fault) ⟨⟨false, none⟩, 1, some [], 0⟩ 2 .background
        (.app (.lam [0x78] (.app (.var [0x78]) (.var [0x78]))) (.lam [0x78] (.app (.var [0x78]) (.var [0x78]))) :
          Term Arith.Value Bytes) = some run ∧
      (run.result, run.steps, (run.log.filter isStepLine).length) = (.error (.returned (.stepLimit 1)), 1, 2) :=
  Option.map_eq_some_iff.mp (by decide +kernel)

end Reducer

end PostfixLambda
