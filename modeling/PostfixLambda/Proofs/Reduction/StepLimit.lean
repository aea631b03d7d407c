import PostfixLambda.Proofs.Reduction.Rounds
import PostfixLambda.Proofs.Reduction.Settings

/-! The step limit is exact. Successive steps from a term lead on for ever, or to a term that no step leaves. A run that
    may take all the steps up to there comes to what that term ends with, be it itself, an error or a panic; a run that
    may not stops at its limit, having taken as many steps. Single steps know nothing of the limit, so a run that succeeds
    within one limit goes the same way within a larger one and without any. What a run comes to is handed over, but for
    one case: the last line is logged outside of recovery, and the panic of a log function over it leaves the run. -/

namespace PostfixLambda.Reducer

variable {V S F : Type} [DecidableEq S] [Domain V F] [Shown S]

/-! ### Steps of reducers that differ -/

section Congruence

variable {red red' : Reducer S} {host : Host V} {i j : Nat} {e n : Term V S}

/-- A step depends on how the reducer contracts and whether it traces, and on nothing else of it. -/
theorem stepAfter_congr (hs : red'.strategy = red.strategy) (hl : red'.logLevel? = red.logLevel?) (i : Nat)
    (e : Term V S) : red'.stepAfter (F := F) host i e = red.stepAfter host i e := by
  simp only [stepAfter, step, say, logged, hs, hl]

theorem StepsTo.congr (h : red.StepsTo (F := F) host i e j n) (red' : Reducer S) (hs : red'.strategy = red.strategy)
    (hl : red'.logLevel? = red.logLevel?) : red'.StepsTo (F := F) host i e j n := by
  induction h with
  | refl i e => exact .refl i e
  | step hstep _ ih =>
    rw [← stepAfter_congr hs hl] at hstep
    exact .step hstep ih

theorem EndsAfter.congr {result : Except (Halt V S F) (Term V S)} (h : red.EndsAfter host i e result)
    (red' : Reducer S) (hs : red'.strategy = red.strategy) (hl : red'.logLevel? = red.logLevel?) :
    red'.EndsAfter host i e result := by
  cases h with
  | normal h => exact .normal ((stepAfter_congr hs hl i e).trans h)
  | failed h => exact .failed ((stepAfter_congr hs hl i e).trans h)
  | broken h => exact .broken ((stepAfter_congr hs hl i e).trans h)

/-- How a step is numbered can only be told from its line, so it does not matter if that line is taken. -/
theorem stepAfter_of_say (hsay : ∀ line message, red.say host.log line ≠ .error message) (i : Nat) (e : Term V S) :
    red.stepAfter (F := F) host i e = (red.step e host).result := by
  have hlike (i : Nat) (line : Unit → Bytes) : say { red with steps := i } host.log line = red.say host.log line := rfl
  simp only [stepAfter, step, hlike]
  split
  · rfl
  · rename_i c _
    cases hnumbered : red.say host.log fun _ => stepLine (i + 1) c with
    | error message => exact absurd hnumbered (hsay _ message)
    | ok new =>
      cases hplain : red.say host.log fun _ => stepLine (red.steps + 1) c with
      | error message => exact absurd hplain (hsay _ message)
      | ok new' => rfl
  · rfl

end Congruence

/-! ### Limits -/

/-- The reducer with the limit that a setting gives it: none if the number is not positive. -/
def limitedTo (red : Reducer S) (m : Int) : Reducer S := { red with maxSteps := m.toNat }

omit [DecidableEq S] [Shown S] in
theorem ofSettings_maxSteps (settings : List (Settings S)) (m : Int) :
    (ofSettings (settings ++ [.one (.maxSteps m)])).1 = (ofSettings settings).1.limitedTo m := by
  rw [ofSettings_eq, ofSettings_eq, Settings.leavesOf_append, List.foldl_append]
  rfl

section Limits

variable {red : Reducer S} {host : Host V} {e n : Term V S} {k : Nat} {m : Int}

/-- A run hands over what its steps come to, if the limit allows them. -/
theorem answers_within (hsteps : red.StepsTo host 0 e k n) {result : Except (Halt V S F) (Term V S)}
    (hend : red.EndsAfter host k n result) (hlimit : m ≤ 0 ∨ k ≤ m) :
    (red.limitedTo m).Answers host e (red.handedOver host.log result k) k := by
  refine answers_of_ends (hsteps.congr (red.limitedTo m) rfl rfl) (hend.congr (red.limitedTo m) rfl rfl) ?_
  simp only [limitedTo]
  omega

theorem answers_at_limit (hm : 0 < m) (hsteps : red.StepsTo (F := F) host 0 e (m.toNat + 1) n) :
    (red.limitedTo m).Answers (F := F) host e
      (red.handedOver host.log (.error (.returned (.stepLimit m.toNat))) m.toNat) m.toNat := by
  refine answers_of_over (hsteps.congr (red.limitedTo m) rfl rfl) ?_ (Nat.lt_succ_self _)
  simp only [limitedTo]
  omega

omit [DecidableEq S] in
/-- A result that is handed over is the one that the run came to, and its last line was taken. -/
theorem eq_of_handedOver {log : LogFunction} {result result' : Except (Halt V S F) (Term V S)}
    (h : red.handedOver log result k = .ok result') : result = result' := by
  unfold handedOver at h
  cases hsay : red.say log fun _ => lastLine result k with
  | ok new =>
    rw [hsay] at h
    exact Except.ok.inj h
  | error message =>
    rw [hsay] at h
    cases h

theorem ends_of_answers (hm : 0 < m) {steps : Nat} (h : (red.limitedTo m).Answers (F := F) host e (.ok (.ok n)) steps) :
    ∃ n', red.StepsTo (F := F) host 0 e steps n' ∧ red.EndsAfter (F := F) host steps n' (.ok n) ∧ steps ≤ m ∧
      red.handedOver (F := F) host.log (.ok n) steps = .ok (.ok n) := by
  -- Were there a step beyond the limit, the run would have failed by it.
  rcases stepsTo_or_ends (F := F) red host 0 (m.toNat + 1) e with ⟨n', hsteps⟩ | ⟨k, n', result, hk, hsteps, hend⟩
  · rw [Nat.zero_add] at hsteps
    obtain ⟨hresult, -⟩ := h.unique (answers_at_limit hm hsteps)
    cases eq_of_handedOver hresult.symm
  · have hle : (k : Int) ≤ m := by omega
    obtain ⟨hresult, rfl⟩ := h.unique (answers_within hsteps hend (Or.inr hle))
    cases eq_of_handedOver hresult.symm
    exact ⟨n', hsteps, hend, hle, hresult.symm⟩

end Limits

/-- The step limit is exact, whatever the host does. Where successive steps, numbered as they are taken, come to a term
    that no step leaves, after as many steps as the limit allows or where there is none, a run takes just these steps and
    comes to that term or its error; a panic of the domain, of the renamer, of a copy or of the log function on the way
    is an error as well. Where within the limit they come to no such term, a run takes as many steps as the limit and comes
    to that it was exceeded. The run hands over what it came to, if and only if the log function takes the last line:
    if not, the panic of the log function leaves the run. So a run that succeeds within a limit has the same result after
    the same steps within every larger one and without any, whatever was run before. The numbers of the steps matter to
    nothing but a log function that does not take their lines. -/
theorem step_limit_exact (host : Host V) (red : Reducer S) (e : Term V S) (m : Int) :
    (∀ settings : List (Settings S), (ofSettings (settings ++ [.one (.maxSteps m)])).1 = (ofSettings settings).1.limitedTo m) ∧
    (∀ k n result, red.StepsTo (F := F) host 0 e k n → red.EndsAfter host k n result → m ≤ 0 ∨ k ≤ m →
      (red.limitedTo m).Answers host e (red.handedOver host.log result k) k) ∧
    (0 < m → (∀ k n result, red.StepsTo (F := F) host 0 e k n → red.EndsAfter (F := F) host k n result → m < k) →
      (red.limitedTo m).Answers (F := F) host e
        (red.handedOver host.log (.error (.returned (.stepLimit m.toNat))) m.toNat) m.toNat) ∧
    (∀ (result : Except (Halt V S F) (Term V S)) steps, red.handedOver host.log result steps = .ok result ↔
      ∀ message, red.say host.log (fun _ => lastLine result steps) ≠ .error message) ∧
    (∀ n steps, 0 < m → (red.limitedTo m).Answers (F := F) host e (.ok (.ok n)) steps →
      ∀ (m' : Int) (before : Nat), m ≤ m' ∨ m' ≤ 0 →
        Answers (F := F) (limitedTo { red with steps := before } m') host e (.ok (.ok n)) steps) ∧
    ((∀ line message, red.say host.log line ≠ .error message) →
      ∀ k n, red.stepAfter (F := F) host k n = (red.step n host).result) := by
  refine ⟨fun settings => ofSettings_maxSteps settings m, ?_, fun hm hnone => ?_, fun result steps => ?_,
    fun n steps hm hanswers m' before hlarger => ?_, fun hsay k n => stepAfter_of_say hsay k n⟩
  · intro k n result hsteps hend hlimit
    exact answers_within hsteps hend hlimit
  · rcases stepsTo_or_ends (F := F) red host 0 (m.toNat + 1) e with ⟨n, hsteps⟩ | ⟨k, n, result, hk, hsteps, hend⟩
    · rw [Nat.zero_add] at hsteps
      exact answers_at_limit hm hsteps
    · have hlt := hnone k n result hsteps hend
      omega
  · unfold handedOver
    cases red.say host.log fun _ => lastLine result steps with
    | ok new => exact ⟨fun _ _ => nofun, fun _ => rfl⟩
    | error message => exact ⟨nofun, fun h => absurd rfl (h message)⟩
  · obtain ⟨n', hsteps, hend, hle, htaken⟩ := ends_of_answers hm hanswers
    have hagain := answers_within (m := m') (hsteps.congr { red with steps := before } rfl rfl)
      (hend.congr { red with steps := before } rfl rfl) (by omega)
    have hsame : handedOver (F := F) { red with steps := before } host.log (.ok n) steps =
        red.handedOver host.log (.ok n) steps := rfl
    rwa [hsame, htaken] at hagain

/-- A constant whose copy breaks down in the first step: the panic counts, and not the limit. A step that leads back to
    its term exceeds the limit, and the log function is not asked where there is no trace. -/
theorem step_limit_exact_panic :
    Answers (limitedTo ⟨⟨false, none⟩, 0, some [], 7⟩ 1) ⟨fun _ => some "broken", .sound⟩
      (.app (.lam [0x78] (.var [0x78])) (.const (.int 1)) : Term Arith.Value Bytes)
      (.ok (.error (.panicked "reduce" "broken"))) 0 ∧
    Answers (limitedTo ⟨⟨false, none⟩, 0, none, 7⟩ 1) ⟨.sound, fun _ => some "broken"⟩
      (.app (.lam [0x78] (.app (.var [0x78]) (.var [0x78]))) (.lam [0x78] (.app (.var [0x78]) (.var [0x78]))) :
        Term Arith.Value Bytes) (.ok (.error (.returned (.stepLimit 1)))) 1 := by
  refine ⟨?_, ?_⟩
  · have hcopy : stepAfter ⟨⟨false, none⟩, 0, some [], 7⟩ ⟨fun _ => some "broken", .sound⟩ 0
        (.app (.lam [0x78] (.var [0x78])) (.const (.int 1)) : Term Arith.Value Bytes) = .error (.panic "broken") := by
      decide +kernel
    exact (step_limit_exact _ _ _ 1).2.1 0 _ _ (.refl 0 _) (.broken hcopy) (Or.inr (by decide))
  · have hloop (i : Nat) : stepAfter ⟨⟨false, none⟩, 0, none, 7⟩ ⟨.sound, fun _ => some "broken"⟩ i
        (.app (.lam [0x78] (.app (.var [0x78]) (.var [0x78]))) (.lam [0x78] (.app (.var [0x78]) (.var [0x78]))) :
          Term Arith.Value Bytes) =
        .ok (.app (.lam [0x78] (.app (.var [0x78]) (.var [0x78]))) (.lam [0x78] (.app (.var [0x78]) (.var [0x78]))),
          true) := by
      rw [stepAfter_of_say fun line message h => by cases h]
      decide +kernel
    refine (step_limit_exact _ _ _ 1).2.2.1 (by decide) fun k n result hsteps hend => ?_
    -- Neither the term nor the one after a step ends a run, since a step leads on from both.
    cases hsteps with
    | refl => cases hend with | normal h | failed h | broken h => rw [hloop] at h; cases h
    | step h rest =>
      rw [hloop] at h
      cases h
      cases rest with
      | refl => cases hend with | normal h | failed h | broken h => rw [hloop] at h; cases h
      | step h rest =>
        have hle := rest.le
        omega

/-- A variable is in normal form, but with a log function that takes no line the run does not return it: the panic of the
    log function leaves the run. -/
theorem last_line_escapes :
    EndsAfter ⟨⟨false, none⟩, 0, some [], 0⟩ ⟨.sound, fun _ => some "broken"⟩ 0
      (.var [0x79] : Term Arith.Value Bytes) (.ok (.var [0x79])) ∧
    Answers ⟨⟨false, none⟩, 0, some [], 0⟩ ⟨.sound, fun _ => some "broken"⟩
      (.var [0x79] : Term Arith.Value Bytes) (.error "broken") 0 ∧
    ¬Answers ⟨⟨false, none⟩, 0, some [], 0⟩ ⟨.sound, fun _ => some "broken"⟩
      (.var [0x79] : Term Arith.Value Bytes) (.ok (.ok (.var [0x79]))) 0 := by
  have hnormal : EndsAfter ⟨⟨false, none⟩, 0, some [], 0⟩ ⟨.sound, fun _ => some "broken"⟩ 0
      (.var [0x79] : Term Arith.Value Bytes) (.ok (.var [0x79])) := .normal (by decide +kernel)
  have hescapes := answers_of_ends (.refl 0 _) hnormal (Or.inl rfl)
  refine ⟨hnormal, hescapes, fun h => ?_⟩
  obtain ⟨hanswer, -⟩ := h.unique hescapes
  cases hanswer

end PostfixLambda.Reducer
