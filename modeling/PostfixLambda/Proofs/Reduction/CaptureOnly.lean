import Mathlib.Data.List.Basic
import PostfixLambda.Arith.Value
import PostfixLambda.Proofs.Reduction.Search
import PostfixLambda.Proofs.Substitution.Replacement

/-! A renamer stands in for capture errors and for nothing else. Where a substitution, a step or a run without a renamer
    does not end in a capture error, it has met no capture at all: the same with a renamer goes the same way to the same
    end, and the renamer is never asked, whatever it would have answered. -/

namespace PostfixLambda

variable {V S F : Type} [DecidableEq S]

namespace Walk

/-! ### Walks -/

/-- The walk was stopped by a capture. -/
def Refusal.IsCapture (r : Refusal S) : Prop := ∃ b v, r.cause = .error (.capture b v)

theorem leave_asked (st : State S) (suspended : Option S) : (st.leave suspended).asked = st.asked := by
  cases suspended <;> rfl

theorem leaf_plain_asked {env : Env V S} {st : State S} {s : S} {r : Refusal S}
    (h : (plain env).leaf st s = .error r) : r.asked = st.asked := by
  simp only [plain, substituting] at h
  split at h
  · cases h
  · split at h
    · cases h
    · cases h
      rfl

/-- Entering a scope without a renamer: nothing is captured there, and a renamer would not be asked, or the walk is
    stopped by a capture. -/
theorem enter_plain_cases (env : Env V S) (st : State S) (b : S) (body : Term V S) :
    (∃ scope, (plain env).enter st b body = .ok scope ∧ scope.state.asked = st.asked ∧
      ∀ onCapture, (substituting env onCapture).enter st b body = .ok scope) ∨
    ∃ v, (plain env).enter st b body = .error ⟨.error (.capture b v), st.asked⟩ := by
  cases hc : (capture? env (shadowBelow env st.shadow b) st.known b body).2 with
  | none =>
    exact Or.inl ⟨_, enter_substituting_of_none hc, rfl, fun onCapture => enter_substituting_of_none hc⟩
  | some v => exact Or.inr ⟨v, enter_substituting_of_error hc rfl⟩

theorem enter_plain_ok {env : Env V S} {st : State S} {b : S} {body : Term V S} {scope : Scope body}
    (h : (plain env).enter st b body = .ok scope) :
    scope.state.asked = st.asked ∧ ∀ onCapture, (substituting env onCapture).enter st b body = .ok scope := by
  rcases enter_plain_cases env st b body with ⟨scope', hok, hasked, hsame⟩ | ⟨v, hcapture⟩
  · rw [hok] at h
    cases h
    exact ⟨hasked, hsame⟩
  · rw [hcapture] at h
    cases h

theorem enter_plain_error {env : Env V S} {st : State S} {b : S} {body : Term V S} {r : Refusal S}
    (h : (plain env).enter st b body = .error r) : r.asked = st.asked ∧ r.IsCapture := by
  rcases enter_plain_cases env st b body with ⟨scope, hok, -⟩ | ⟨v, hcapture⟩
  · rw [hok] at h
    cases h
  · rw [hcapture] at h
    cases h
    exact ⟨rfl, b, v, rfl⟩

/-- Without a renamer no call is made. -/
theorem rebuild_plain_asked (env : Env V S) (st : State S) (e : Term V S) :
    callsAtEnd (rebuild (plain env) st e) = st.asked := by
  fun_induction rebuild (plain env) st e with
  | case1 st v => rfl
  | case2 st v message hdup => cases hdup
  | case3 st s r hr => rfl
  | case4 st s r hr => exact leaf_plain_asked hr
  | case5 st fn arg r hfn ihfn =>
    rw [hfn] at ihfn
    exact ihfn
  | case6 st fn arg fn' st₁ hfn r harg ihfn iharg =>
    rw [hfn] at ihfn
    rw [harg] at iharg
    exact iharg.trans ihfn
  | case7 st fn arg fn' st₁ hfn arg' st₂ harg ihfn iharg =>
    rw [hfn] at ihfn
    rw [harg] at iharg
    exact iharg.trans ihfn
  | case8 st b body r henter => exact (enter_plain_error henter).1
  | case9 st b body scope henter r hinner ih =>
    rw [hinner] at ih
    exact ih.trans (enter_plain_ok henter).1
  | case10 st b body scope henter inner st' hinner ih =>
    rw [hinner] at ih
    exact (leave_asked st' scope.suspended).trans (ih.trans (enter_plain_ok henter).1)
  | case11 st => rfl

/-- A walk that no capture stops goes the same way, whatever would have been done about a capture. -/
theorem rebuild_eq_plain {env : Env V S} (onCapture : OnCapture V S) {st : State S} {e : Term V S}
    (h : ∀ r, rebuild (plain env) st e = .error r → ¬r.IsCapture) :
    rebuild (substituting env onCapture) st e = rebuild (plain env) st e := by
  have hleaf : (substituting env onCapture).leaf = (plain env).leaf := rfl
  -- The induction is on the walk without a renamer; as long as no capture is met, the other one carries the same state.
  fun_induction rebuild (plain env) st e with
  | case1 st v => exact rebuild_const rfl
  | case2 st v message hdup => cases hdup
  | case3 st s r hr => rw [rebuild, hleaf, hr]
  | case4 st s r hr => rw [rebuild, hleaf, hr]
  | case5 st fn arg r hfn ihfn =>
    have hsame := ihfn (by simpa [hfn] using h)
    rw [rebuild, hsame, hfn]
  | case6 st fn arg fn' st₁ hfn r harg ihfn iharg =>
    have hsame := ihfn (by simp [hfn])
    have hsame' := iharg (by simpa [harg] using h)
    rw [rebuild, hsame, hfn]
    simp only [hsame', harg]
  | case7 st fn arg fn' st₁ hfn arg' st₂ harg ihfn iharg =>
    have hsame := ihfn (by simp [hfn])
    have hsame' := iharg (by simp [harg])
    exact rebuild_app (hsame.trans hfn) (hsame'.trans harg)
  | case8 st b body r henter => exact absurd (enter_plain_error henter).2 (h r rfl)
  | case9 st b body scope henter r hinner ih =>
    have hsame := ih (by simpa [hinner] using h)
    rw [rebuild, (enter_plain_ok henter).2 onCapture]
    simp only [hsame, hinner]
  | case10 st b body scope henter inner st' hinner ih =>
    have hsame := ih (by simp [hinner])
    exact rebuild_lam ((enter_plain_ok henter).2 onCapture) (hsame.trans hinner)
  | case11 st => rw [rebuild]

end Walk

/-! ### Substitution -/

/-- What was attempted without a renamer and with one came to the same, and no renamer was asked. -/
structure Unasked {ε α : Type} (without withOne : Attempt S ε α) : Prop where
  same : withOne = without
  asked : without.asked = []

namespace Term

theorem bind_unasked {e : Term V S} (env : Env V S) (rename : Renamer S)
    (h : ∀ b v, (e.bind env none).result ≠ .error (.error (.capture b v))) :
    Unasked (e.bind env none) (e.bind env (some rename)) := by
  have hasked := Walk.rebuild_plain_asked env ⟨[], Walk.Known.ofTerm env e, []⟩ e
  have hnot : ∀ r, Walk.rebuild (Walk.plain env) ⟨[], Walk.Known.ofTerm env e, []⟩ e = .error r → ¬r.IsCapture := by
    rintro r hr ⟨b, v, hcause⟩
    refine h b v ?_
    simp only [bind, Walk.run, Walk.rulesFor, Walk.drain_eq_rebuild, hr, hcause]
  have hsame := Walk.rebuild_eq_plain (Walk.renameBinder env rename) hnot
  simp only [bind, Walk.run, Walk.rulesFor, Walk.drain_eq_rebuild]
  refine ⟨?_, ?_⟩
  · rw [hsame]
  · cases hr : Walk.rebuild (Walk.plain env) ⟨[], Walk.Known.ofTerm env e, []⟩ e with
    | ok built =>
      rw [hr] at hasked
      exact congrArg List.reverse hasked
    | error r =>
      rw [hr] at hasked
      exact congrArg List.reverse hasked

theorem betaReduce_unasked {e : Term V S} (rename : Renamer S)
    (h : ∀ b v, (e.betaReduce none : Attempt S (Stop (ReduceError V S F)) (Term V S)).result ≠
      .error (.error (.term (.capture b v)))) :
    Unasked (e.betaReduce none : Attempt S (Stop (ReduceError V S F)) (Term V S)) (e.betaReduce (some rename)) := by
  unfold betaReduce at h ⊢
  split
  · rename_i binder body arg
    have hbind := bind_unasked (e := body) [(binder, arg)] rename fun b v hcapture =>
      h b v (by simp only [substitute, hcapture]; rfl)
    simp only [substitute, hbind.same]
    exact ⟨rfl, hbind.asked⟩
  · exact ⟨rfl, rfl⟩

end Term

/-! ### Steps -/

namespace Step

variable [Domain V F] {delta : Bool}

/-- The attempt fails by a capture. -/
def FailsByCapture {α : Type} (attempt : Attempt S (Stop (ReduceError V S F)) α) : Prop :=
  ∃ b v, attempt.result = .error (.error (.term (.capture b v)))

omit [DecidableEq S] [Domain V F] in
theorem FailsByCapture.within {attempt : Attempt S (Stop (ReduceError V S F)) (Contraction V S)}
    (h : FailsByCapture attempt) (frame : Frame V S) : FailsByCapture (within frame attempt) := by
  obtain ⟨b, v, hresult⟩ := h
  exact ⟨b, v, by simp only [Step.within, hresult]; rfl⟩

theorem here_unasked (rename : Renamer S) {e : Term V S} {rule : Rule}
    (h : ¬FailsByCapture (F := F) (here ⟨delta, none⟩ e rule)) :
    Unasked (here (F := F) ⟨delta, none⟩ e rule) (here ⟨delta, some rename⟩ e rule) := by
  cases rule with
  | delta => exact ⟨rfl, rfl⟩
  | beta =>
    have hbeta := Term.betaReduce_unasked (F := F) (e := e) rename fun b v hcapture =>
      h ⟨b, v, by simp only [here, contract, hcapture]; rfl⟩
    simp only [here, contract, hbeta.same]
    exact ⟨rfl, hbeta.asked⟩

/-- Of two searches for a redex the second comes to the same as the first and asks no renamer, unless the first ends in
    a capture. -/
def SameUnlessCapture (found found' : Option (Attempt S (Stop (ReduceError V S F)) (Contraction V S))) : Prop :=
  (∀ attempt, found = some attempt → ¬FailsByCapture attempt) →
    found' = found ∧ ∀ attempt, found = some attempt → attempt.asked = []

omit [DecidableEq S] [Domain V F] in
theorem SameUnlessCapture.within {found found' : Option (Attempt S (Stop (ReduceError V S F)) (Contraction V S))}
    (h : SameUnlessCapture found found') (frame : Frame V S) :
    SameUnlessCapture (found.map (within frame)) (found'.map (within frame)) := by
  intro hnot
  obtain ⟨rfl, hasked⟩ := h fun attempt ha hf => hnot _ (by rw [ha]; rfl) (hf.within frame)
  refine ⟨rfl, fun attempt ha => ?_⟩
  obtain ⟨inner, hinner, rfl⟩ := Option.map_eq_some_iff.mp ha
  exact hasked inner hinner

/-- The first redex is the same with a renamer and without; so is its contraction, unless it fails by a capture. -/
theorem first_unasked (delta : Bool) (rename : Renamer S) (e : Term V S) :
    SameUnlessCapture (F := F) (first ⟨delta, none⟩ e) (first ⟨delta, some rename⟩ e) := by
  induction e with
  | const v => exact fun _ => ⟨rfl, fun _ ha => by cases ha⟩
  | var s => exact fun _ => ⟨rfl, fun _ ha => by cases ha⟩
  | hole => exact fun _ => ⟨rfl, fun _ ha => by cases ha; rfl⟩
  | lam b body ih => exact ih.within (.body b)
  | app fn arg ihfn iharg =>
    simp only [first]
    cases hrule : rule? delta (.app fn arg) with
    | some rule =>
      intro hnot
      have hhere := here_unasked (F := F) rename (hnot _ rfl)
      exact ⟨congrArg some hhere.same, fun _ ha => by cases ha; exact hhere.asked⟩
    | none =>
      -- Whether the redex is in the function does not depend on the renamer, if its contraction does not fail.
      cases hfn : first (F := F) ⟨delta, none⟩ fn with
      | some attempt =>
        intro hnot
        have hsame := ihfn.within (.fn arg)
        rw [hfn] at hsame
        obtain ⟨hfound, hasked⟩ := hsame hnot
        obtain ⟨attempt', hfn', hwithin⟩ := Option.map_eq_some_iff.mp hfound
        simp only [hfn', hwithin]
        exact ⟨trivial, hasked⟩
      | none =>
        rw [hfn] at ihfn
        obtain ⟨hfn', -⟩ := ihfn fun _ ha => by cases ha
        rw [hfn']
        exact iharg.within (.arg fn)

end Step

namespace Term

variable [Domain V F]

theorem step_unasked (delta : Bool) {e : Term V S} (rename : Renamer S)
    (h : ¬Step.FailsByCapture (F := F) (e.step ⟨delta, none⟩)) :
    Unasked (e.step ⟨delta, none⟩ : Attempt S (Stop (ReduceError V S F)) _) (e.step ⟨delta, some rename⟩) := by
  rw [step_eq] at h ⊢
  obtain ⟨hsame, hasked⟩ := Step.first_unasked (F := F) delta rename e fun attempt ha hf => by
    obtain ⟨b, v, hresult⟩ := hf
    rw [ha] at h
    exact h ⟨b, v, by simp only [hresult]; rfl⟩
  rw [step_eq, hsame]
  refine ⟨rfl, ?_⟩
  cases hfirst : Step.first (F := F) ⟨delta, none⟩ e with
  | none => rfl
  | some attempt => exact hasked attempt hfirst

end Term

/-! ### Runs -/

namespace Reducer

variable [Domain V F] [Shown S]

/-- The reducer with another renamer, or with none. -/
def renamingBy (red : Reducer S) (rename? : Option (Renamer S)) : Reducer S :=
  { red with strategy := ⟨red.strategy.delta, rename?⟩ }

/-- The run ended in a capture error. -/
def EndsInCapture (result : Except (Halt V S F) (Term V S)) : Prop :=
  ∃ b v, result = .error (.returned (.reduce (.term (.capture b v))))

theorem step_unasked {red : Reducer S} {e : Term V S} (rename : Renamer S)
    (h : ∀ b v, ((red.renamingBy none).step e).result ≠ .error (.error (.term (.capture b v) : ReduceError V S F))) :
    (red.renamingBy (some rename)).step (F := F) e = (red.renamingBy none).step e ∧
      ((red.renamingBy none).step (F := F) e).asked = [] := by
  have hstep := Term.step_unasked (F := F) red.strategy.delta (e := e) rename <| by
    rintro ⟨b, v, hresult⟩
    exact h b v (by simp only [step_sound, renamingBy, hresult])
  simp only [step_sound, renamingBy, hstep.same, logged]
  refine ⟨trivial, ?_⟩
  split
  · exact hstep.asked
  · exact hstep.asked
  · exact hstep.asked

/-- The calls of a renamer that a round knows of, the latest first. -/
def Round.asked : Round V S F → List (Call S)
  | .ended _ last => last.asked
  | .goesOn next => next.asked

/-- One round goes the same way with a renamer, which is not asked, unless it ends in a capture. -/
theorem round_unasked (red : Reducer S) (rename : Renamer S) (ctx : Context) {p : Progress V S} (hp : p.asked = [])
    (h : ∀ b v last, (red.renamingBy none).round (F := F) ctx p ≠ .halted (.reduce (.term (.capture b v))) last) :
    (red.renamingBy (some rename)).round (F := F) ctx p = (red.renamingBy none).round ctx p ∧
      ((red.renamingBy none).round (F := F) ctx p).asked = [] := by
  cases hctx : ctx p.lines p.steps with
  | some i =>
    simp only [round_sound, hctx]
    exact ⟨trivial, hp⟩
  | none =>
    have hstep := Term.step_unasked (F := F) red.strategy.delta (e := p.term) rename <| by
      rintro ⟨b, v, hresult⟩
      refine h b v { p with asked := (p.term.step (F := F) ⟨red.strategy.delta, none⟩).asked.reverse ++ p.asked } ?_
      simp only [round_sound, hctx, renamingBy, hresult]
    simp only [round_sound, hctx, renamingBy, hstep.same, hstep.asked, logged]
    refine ⟨trivial, ?_⟩
    rcases (Term.step (F := F) ⟨red.strategy.delta, none⟩ p.term).result with (e | message) | (_ | c)
    · exact hp
    · exact hp
    · exact hp
    · simp only
      split
      · exact hp
      · exact hp

theorem rounds_unasked {red : Reducer S} (rename : Renamer S) {ctx : Context} {fuel : Nat} {p last : Progress V S}
    {how : Ending (HaltCause V S F)} (hp : p.asked = [])
    (hrun : (red.renamingBy none).rounds ctx fuel p = some (how, last))
    (h : ∀ b v, how ≠ .returned (some (.returned (.reduce (.term (.capture b v)))))) :
    (red.renamingBy (some rename)).rounds ctx fuel p = some (how, last) ∧ last.asked = [] := by
  induction fuel generalizing p with
  | zero => cases hrun
  | succ fuel ih =>
    rw [rounds] at hrun ⊢
    have hround := round_unasked (F := F) red rename ctx hp <| by
      intro b v last' hr
      rw [hr] at hrun
      cases hrun
      exact h b v rfl
    rw [hround.1]
    cases hr : (red.renamingBy none).round (F := F) ctx p with
    | ended how' last' =>
      rw [hr] at hrun hround
      cases hrun
      exact ⟨rfl, hround.2⟩
    | goesOn next =>
      rw [hr] at hrun hround
      exact ih hround.2 hrun

theorem normalize_unasked {red : Reducer S} (rename : Renamer S) {ctx : Context} {fuel : Nat} {e : Term V S}
    {run : Run V S F} (hrun : (red.renamingBy none).normalize fuel ctx e = some run) (h : ¬EndsInCapture run.result) :
    (red.renamingBy (some rename)).normalize fuel ctx e = some run ∧ run.asked = [] := by
  obtain ⟨⟨how, last⟩, hrounds, rfl⟩ := Option.map_eq_some_iff.mp hrun
  obtain ⟨hsame, hasked⟩ := rounds_unasked rename (p := ⟨e, 0, 0, [], []⟩) rfl hrounds <| by
    rintro b v rfl
    exact h ⟨b, v, rfl⟩
  refine ⟨?_, ?_⟩
  · rw [normalize, hsame]
    rfl
  · simp only [close, hasked, List.reverse_nil]

/-- A renamer stands in for capture errors and for nothing else. Whatever a renamer does, if a substitution in an
    environment or for one name, a beta step, a step or a run without a renamer ends in anything but a capture error,
    then with the renamer it comes to the same result or error, steps and lines, and the renamer is never asked. -/
theorem renamer_replaces_captures_only (rename : Renamer S) :
    (∀ (e : Term V S) (env : Env V S), (∀ b v, (e.bind env none).result ≠ .error (.error (.capture b v))) →
      e.bind env (some rename) = e.bind env none ∧ (e.bind env (some rename)).asked = []) ∧
    (∀ (e : Term V S) (s : S) (r : Term V S),
      (∀ b v, (e.substitute s r none).result ≠ .error (.error (.capture b v))) →
      e.substitute s r (some rename) = e.substitute s r none ∧ (e.substitute s r (some rename)).asked = []) ∧
    (∀ e : Term V S,
      (∀ b v, (e.betaReduce (F := F) none).result ≠ .error (.error (.term (.capture b v)))) →
      e.betaReduce (F := F) (some rename) = e.betaReduce none ∧ (e.betaReduce (F := F) (some rename)).asked = []) ∧
    (∀ (red : Reducer S) (e : Term V S),
      (∀ b v, ((red.renamingBy none).step (F := F) e).result ≠ .error (.error (.term (.capture b v)))) →
      (red.renamingBy (some rename)).step (F := F) e = (red.renamingBy none).step e ∧
        ((red.renamingBy (some rename)).step (F := F) e).asked = []) ∧
    ∀ (red : Reducer S) (ctx : Context) (fuel : Nat) (e : Term V S) (run : Run V S F),
      (red.renamingBy none).normalize fuel ctx e = some run →
      (∀ b v, run.result ≠ .error (.returned (.reduce (.term (.capture b v))))) →
      (red.renamingBy (some rename)).normalize fuel ctx e = some run ∧ run.asked = [] := by
  refine ⟨fun e env h => ?_, fun e s r h => ?_, fun e h => ?_, fun red e h => ?_, fun red ctx fuel e run hrun h => ?_⟩
  · obtain ⟨hsame, hasked⟩ := Term.bind_unasked env rename h
    exact ⟨hsame, hsame ▸ hasked⟩
  · obtain ⟨hsame, hasked⟩ := Term.bind_unasked [(s, r)] rename h
    exact ⟨hsame, (congrArg Attempt.asked hsame).trans hasked⟩
  · obtain ⟨hsame, hasked⟩ := Term.betaReduce_unasked rename h
    exact ⟨hsame, hsame ▸ hasked⟩
  · obtain ⟨hsame, hasked⟩ := step_unasked rename h
    exact ⟨hsame, hsame ▸ hasked⟩
  · exact normalize_unasked rename hrun fun ⟨b, v, hcapture⟩ => h b v hcapture

/-- A renamer that breaks down whenever it is asked is not asked where a hole stops a substitution below a binder, nor
    in a run that inserts a constant below a binder. -/
theorem renamer_replaces_captures_only_breaking :
    ((.lam [0x79] (.app (.var [0x78]) .hole) : Term Arith.Value Bytes).bind [([0x78], .var [0x7A])]
      (some fun _ _ => ⟨[], .error "broken"⟩)).result = .error (.error .invalidTerm) ∧
    ∃ run, normalize (renamingBy ⟨⟨false, none⟩, 0, none, 0⟩ (some fun _ _ => ⟨[], .error "broken"⟩)) 2 .background
      (.app (.lam [0x78] (.lam [0x79] (.var [0x78]))) (.const (.int 1)) : Term Arith.Value Bytes) = some run ∧
      run.result = .ok (.lam [0x79] (.const (.int 1))) ∧ run.asked = [] := by
  have hhole : ((.lam [0x79] (.app (.var [0x78]) .hole) : Term Arith.Value Bytes).bind [([0x78], .var [0x7A])]
      none).result = .error (.error .invalidTerm) := by decide +kernel
  obtain ⟨run, hrun, hresult⟩ : ∃ run, normalize (renamingBy ⟨⟨false, none⟩, 0, none, 0⟩ none) 2 .background
      (.app (.lam [0x78] (.lam [0x79] (.var [0x78]))) (.const (.int 1)) : Term Arith.Value Bytes) = some run ∧
      run.result = .ok (.lam [0x79] (.const (.int 1))) := Option.map_eq_some_iff.mp (by decide +kernel)
  have h := renamer_replaces_captures_only (V := Arith.Value) (S := Bytes) fun _ _ => ⟨[], .error "broken"⟩
  obtain ⟨hsame, hasked⟩ := h.2.2.2.2 _ _ _ _ run hrun fun b v hc => by rw [hresult] at hc; cases hc
  refine ⟨?_, run, hsame, hresult, hasked⟩
  rw [(h.1 _ _ fun b v hc => by rw [hhole] at hc; cases hc).1, hhole]

end Reducer

end PostfixLambda
